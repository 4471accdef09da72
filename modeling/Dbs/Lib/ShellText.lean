/-
  File:      Dbs/Lib/ShellText.lean
  Subject:   WHAT A POSIX SHELL MAKES OF A TEXT, of the part of its language that has no expansions:
             words with their quotes, lines, `||`, `cd`, `export`, `exec`, `exit` and programs.

  Everything else has no meaning here (`none`), so that a text with a meaning is one that every such
  shell reads alike. What the system answers (a folder is there, a program succeeds) is a parameter,
  and so are the variables that a shell keeps for itself.

  * `lex` -- the tokens of a text; `lex_plain`, `lex_quote`, `lex_word` -- words and their parts;
  * `lex_line` -- a line is read on its own;
  * `execute` -- the events of a text, in their order; `execute_line` -- the first line, then the
    others.
-/
import Mathlib.Data.List.Basic

namespace ShellText

abbrev Text := List Char

/-! ## 1. Tokens -/

inductive Token
  | word (text : Text)
  | newline
  | orIf

/-- Where the lexer stands: between quotes or not, or behind the first character of `||`. -/
inductive Quoting
  | bare
  | single
  | double
  | bar

/-- Characters that stand for themselves, in and between words. -/
def isPlain (c : Char) : Bool := c.isAlphanum || "_@%+=:,./-".toList.contains c

def isBlank (c : Char) : Bool := c == ' ' || c == '\t'

/-- What keeps its meaning between double quotes. -/
def isLive (c : Char) : Bool := c == '$' || c == '`' || c == '\\'

/-- The word that ends, if one has begun. -/
def ended (word : Option Text) : List Token := (word.map Token.word).toList

def grown (word : Option Text) (part : Text) : Option Text := some (word.getD [] ++ part)

def lex : Quoting → Option Text → Text → Option (List Token)
  | .bare, word, [] => some (ended word)
  | _, _, [] => none
  | .bare, word, c :: rest =>
    if c = '\'' then lex .single (grown word []) rest
    else if c = '"' then lex .double (grown word []) rest
    else if isPlain c then lex .bare (grown word [c]) rest
    else if isBlank c then (lex .bare none rest).map (ended word ++ ·)
    else if c = '\n' then (lex .bare none rest).map (ended word ++ .newline :: ·)
    else if c = '|' then (lex .bar none rest).map (ended word ++ ·)
    else none
  | .single, word, c :: rest =>
    if c = '\'' then lex .bare word rest else lex .single (grown word [c]) rest
  | .double, word, c :: rest =>
    if c = '"' then lex .bare word rest
    else if isLive c then none
    else lex .double (grown word [c]) rest
  | .bar, _, c :: rest => if c = '|' then (lex .bare none rest).map (.orIf :: ·) else none

/-! ## 2. Parts of a word -/

variable {word : Option Text} {text rest : Text} {tokens : List Token}

theorem grown_grown (word : Option Text) (a b : Text) :
    grown (grown word a) b = grown word (a ++ b) := by
  simp [grown]

theorem lex_quote (word : Option Text) (rest : Text) :
    lex .bare word ('\'' :: rest) = lex .single (grown word []) rest := by
  rw [lex, if_pos rfl]

theorem lex_plain_char {c : Char} (hc : isPlain c = true) :
    lex .bare word (c :: rest) = lex .bare (grown word [c]) rest := by
  have hquote : c ≠ '\'' := by
    rintro rfl
    exact absurd hc (by decide)
  have hdouble : c ≠ '"' := by
    rintro rfl
    exact absurd hc (by decide)
  rw [lex, if_neg hquote, if_neg hdouble, if_pos hc]

/-- **Plain characters** are a part of the word. -/
theorem lex_plain (h : ∀ c ∈ text, isPlain c = true) (hne : text ≠ []) :
    lex .bare word (text ++ rest) = lex .bare (grown word text) rest := by
  induction text generalizing word with
  | nil => exact absurd rfl hne
  | cons c text ih =>
    rw [List.cons_append, lex_plain_char (h c List.mem_cons_self)]
    rcases text with - | ⟨d, text⟩
    · rfl
    · rw [ih (fun x hx => h x (List.mem_cons_of_mem _ hx)) (List.cons_ne_nil _ _), grown_grown]
      rfl

theorem lex_blank (word : Option Text) (rest : Text) :
    lex .bare word (' ' :: rest) = (lex .bare none rest).map (ended word ++ ·) := by
  rw [lex, if_neg (by decide), if_neg (by decide), if_neg (by decide), if_pos (by decide)]

theorem lex_newline (word : Option Text) (rest : Text) :
    lex .bare word ('\n' :: rest) = (lex .bare none rest).map (ended word ++ .newline :: ·) := by
  rw [lex, if_neg (by decide), if_neg (by decide), if_neg (by decide), if_neg (by decide), if_pos rfl]

/-- A word and a blank. -/
theorem lex_word (h : ∀ c ∈ text, isPlain c = true) (hne : text ≠ []) (rest : Text) :
    lex .bare none (text ++ ' ' :: rest) = (lex .bare none rest).map (Token.word text :: ·) := by
  rw [lex_plain h hne, lex_blank]
  rfl

theorem map_front {f : List Token → List Token} {g : List Token} (hf : ∀ ts, f ts = g ++ ts)
    (h : (lex .bare none text).map f = some tokens)
    (ih : ∀ {ts}, lex .bare none text = some ts →
      lex .bare none (text ++ '\n' :: rest) = (lex .bare none rest).map (ts ++ .newline :: ·)) :
    (lex .bare none (text ++ '\n' :: rest)).map f =
      (lex .bare none rest).map (tokens ++ .newline :: ·) := by
  obtain ⟨ts, hts, rfl⟩ := Option.map_eq_some_iff.mp h
  rw [ih hts, Option.map_map]
  refine congrArg (Option.map · _) (funext fun us => ?_)
  simp only [Function.comp_apply, hf, List.append_assoc]

/-- **A line is read on its own**, whatever follows it. -/
theorem lex_line {quoting : Quoting} (h : lex quoting word text = some tokens) (rest : Text) :
    lex quoting word (text ++ '\n' :: rest) =
      (lex .bare none rest).map (tokens ++ .newline :: ·) := by
  induction text generalizing quoting word tokens with
  | nil =>
    cases quoting with
    | bare =>
      cases h
      exact lex_newline word rest
    | single => cases h
    | double => cases h
    | bar => cases h
  | cons c text ih =>
    cases quoting with
    | bare =>
      rw [lex] at h
      rw [List.cons_append, lex]
      by_cases hquote : c = '\''
      · rw [if_pos hquote] at h ⊢
        exact ih h
      rw [if_neg hquote] at h ⊢
      by_cases hdouble : c = '"'
      · rw [if_pos hdouble] at h ⊢
        exact ih h
      rw [if_neg hdouble] at h ⊢
      by_cases hplain : isPlain c = true
      · rw [if_pos hplain] at h ⊢
        exact ih h
      rw [if_neg hplain] at h ⊢
      by_cases hblank : isBlank c = true
      · rw [if_pos hblank] at h ⊢
        exact map_front (fun _ => rfl) h ih
      rw [if_neg hblank] at h ⊢
      by_cases hline : c = '\n'
      · rw [if_pos hline] at h ⊢
        exact map_front (g := ended word ++ [.newline]) (fun ts => by simp) h ih
      rw [if_neg hline] at h ⊢
      by_cases hbar : c = '|'
      · rw [if_pos hbar] at h ⊢
        obtain ⟨ts, hts, rfl⟩ := Option.map_eq_some_iff.mp h
        rw [ih hts, Option.map_map]
        refine congrArg (Option.map · _) (funext fun us => ?_)
        simp only [Function.comp_apply, List.append_assoc]
      · rw [if_neg hbar] at h
        cases h
    | single =>
      rw [lex] at h
      rw [List.cons_append, lex]
      by_cases hquote : c = '\''
      · rw [if_pos hquote] at h ⊢
        exact ih h
      · rw [if_neg hquote] at h ⊢
        exact ih h
    | double =>
      rw [lex] at h
      rw [List.cons_append, lex]
      by_cases hdouble : c = '"'
      · rw [if_pos hdouble] at h ⊢
        exact ih h
      rw [if_neg hdouble] at h ⊢
      by_cases hlive : isLive c = true
      · rw [if_pos hlive] at h
        cases h
      · rw [if_neg hlive] at h ⊢
        exact ih h
    | bar =>
      rw [lex] at h
      rw [List.cons_append, lex]
      by_cases hbar : c = '|'
      · rw [if_pos hbar] at h ⊢
        exact map_front (g := [.orIf]) (fun _ => rfl) h ih
      · rw [if_neg hbar] at h
        cases h

/-! ## 3. Commands -/

/-- What a shell does that can be seen outside of it. -/
inductive Event
  | changed (folder : Text)
  | exported (name value : Text)
  /-- `export` without a value. -/
  | marked (name : Text)
  | ran (argv : List Text)
  /-- `exec`. -/
  | replaced (argv : List Text)
  | exited (status : Text)
deriving DecidableEq

/-- What the system answers. `special`: the variables that the shell sets itself or does not let be
    set to any value, as `OPTIND`, `PPID`, `UID` or `RANDOM` in some. -/
structure System where
  special : Text → Bool
  reaches : Text → Bool
  succeeds : List Text → Bool

structure Outcome where
  events : List Event
  succeeded : Bool
  /-- The shell is not there any more. -/
  ended : Bool

def Outcome.done (events : List Event) : Outcome := ⟨events, true, false⟩

def Outcome.last (event : Event) : Outcome := ⟨[event], true, true⟩

/-- What comes behind it, unless it has ended. -/
def Outcome.followed (o : Outcome) (next : Option Outcome) : Option Outcome :=
  if o.ended then some o else next.map fun p => { p with events := o.events ++ p.events }

theorem Outcome.followed_some {events : List Event} {succeeded : Bool} (next : Outcome) :
    (Outcome.mk events succeeded false).followed (some next) =
      some { next with events := events ++ next.events } := rfl

def isNameStart (c : Char) : Bool := c.isAlpha || c == '_'

/-- The name of a variable. -/
def isName (name : Text) : Bool :=
  match name with
  | [] => false
  | c :: rest => isNameStart c && rest.all fun d => isNameStart d || d.isDigit

/-- `export`, of one operand. -/
def exportOne (sys : System) (operand : Text) : Option Outcome :=
  let name := operand.takeWhile (· != '=')
  if isName name && !sys.special name then
    match operand.drop name.length with
    | [] => some (.done [.marked name])
    | _ :: value => some (.done [.exported name value])
  else none

/-- A name of no builtin and no reserved word, and no assignment. -/
def isProgram (name : Text) : Bool :=
  (name.contains '/' || name.head? == some '=') && !isName (name.takeWhile (· != '='))

/-- A simple command. `exec` may take a program with a dash in front for an option. -/
def command (sys : System) : List Text → Option Outcome
  | [] => none
  | name :: operands =>
    if name = "cd".toList then
      match operands with
      | [folder] =>
        if folder.head? = some '/' then
          some (if sys.reaches folder then .done [.changed folder] else ⟨[], false, false⟩)
        else none
      | _ => none
    else if name = "export".toList then
      match operands with
      | [operand] => exportOne sys operand
      | _ => none
    else if name = "exec".toList then
      match operands with
      | [] => none
      | program :: arguments =>
        if program.head? = some '-' then none else some (.last (.replaced (program :: arguments)))
    else if name = "exit".toList then
      match operands with
      | [status] => if isName status then none else some (.last (.exited status))
      | _ => none
    else if isProgram name then
      some ⟨[.ran (name :: operands)], sys.succeeds (name :: operands), false⟩
    else none

/-- The commands of a line, between the `||`. -/
def alternatives : List Text → List Token → Option (List (List Text))
  | words, [] => some [words]
  | words, .word w :: rest => alternatives (words ++ [w]) rest
  | words, .orIf :: rest => (alternatives [] rest).map (words :: ·)
  | _, .newline :: _ => none

/-- One after another, until one succeeds. -/
def tryEach (sys : System) : List (List Text) → Option Outcome
  | [] => some ⟨[], false, false⟩
  | words :: rest =>
    (command sys words).bind fun o => if o.succeeded then some o else o.followed (tryEach sys rest)

def runLine (sys : System) (line : List Token) : Option Outcome :=
  if line = [] then some (.done []) else (alternatives [] line).bind (tryEach sys)

/-- The lines of the tokens, the first of which has begun. -/
def runTokens (sys : System) : List Token → List Token → Option Outcome
  | line, [] => runLine sys line
  | line, .newline :: rest => (runLine sys line).bind fun o => o.followed (runTokens sys [] rest)
  | line, t :: rest => runTokens sys (line ++ [t]) rest

def execute (sys : System) (text : Text) : Option Outcome :=
  (lex .bare none text).bind (runTokens sys [])

/-- What is done with a text that is an argument of a shell: no argument holds a NUL. -/
def run (sys : System) (text : Text) : Option Outcome :=
  if text.contains '\x00' then none else execute sys text

/-! ## 4. Lines -/

variable {sys : System}

theorem runTokens_line {line : List Token} (hline : Token.newline ∉ tokens) (others : List Token) :
    runTokens sys line (tokens ++ .newline :: others) =
      (runLine sys (line ++ tokens)).bind fun o => o.followed (runTokens sys [] others) := by
  induction tokens generalizing line with
  | nil =>
    rw [List.append_nil]
    rfl
  | cons t tokens ih =>
    have hrest : Token.newline ∉ tokens := fun h => hline (List.mem_cons_of_mem t h)
    cases t with
    | newline => exact absurd List.mem_cons_self hline
    | word _ | orIf => exact (ih hrest).trans (by rw [List.append_assoc, List.singleton_append])

/-- **The first line, then the others.** -/
theorem execute_line (htokens : lex .bare none text = some tokens) (hline : Token.newline ∉ tokens)
    (hlexed : (lex .bare none rest).isSome) : execute sys (text ++ '\n' :: rest) =
      (runLine sys tokens).bind fun o => o.followed (execute sys rest) := by
  obtain ⟨others, hothers⟩ := Option.isSome_iff_exists.mp hlexed
  rw [execute, lex_line htokens, hothers, execute, hothers]
  exact runTokens_line hline others

end ShellText
