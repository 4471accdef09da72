/-
  File:      Dbs/Remote/Scripts.lean
  Subject:   THE TEXT THAT A SERVER'S SHELL IS GIVEN (ssh_gateway.py, build_script, ENV_NAME): a
             folder, variables and a command, quoted twice.

  * `quote`, `join` -- those of shlex; `envName` -- the pattern of the names, `$` before a line break
    too;
  * `buildScript` -- as the code has it;
  * `lex_quote_text` -- a quoted text is a part of a word, and evaluates to itself;
  * `remote` -- the login shell is given the text, and /bin/sh its script;
  * `expected` -- the folder, the variables and the command, and nothing else;
  * `runs_exactly_iff` -- that is what is done, but where a name ends in a line break or is one that the
    shell keeps for itself, the program begins with a dash, or a text has a NUL;
    `line_break_runs` -- a variable whose value is run.
-/
import Dbs.Lib.Rows
import Dbs.Lib.ShellText
import Mathlib.Data.Char
import Mathlib.Data.List.Lex
import Mathlib.Data.Prod.Lex

namespace Dbs.Remote.Scripts

open ShellText Rows

/-! ## 1. shlex -/

/-- `_find_unsafe` finds nothing in it. -/
def isSafe (c : Char) : Bool := c.isAlphanum || "_@%+=:,./-".toList.contains c

/-- Every quote ends the quotes, is put between double ones, and opens them again. -/
def quoted : Text → Text
  | [] => []
  | c :: rest => (if c = '\'' then "'\"'\"'".toList else [c]) ++ quoted rest

def quote (text : Text) : Text :=
  if text = [] then "''".toList
  else if text.all isSafe then text
  else '\'' :: (quoted text ++ ['\''])

def join (argv : List Text) : Text := [' '].intercalate (argv.map quote)

/-! ## 2. The script -/

/-- Without a line break at the end. -/
def unbroken (name : Text) : Text := if name.getLast? = some '\n' then name.dropLast else name

/-- `^[A-Za-z_][A-Za-z0-9_]*$`, which also matches before a line break at the end. -/
def envName (name : Text) : Bool := isName (unbroken name)

def exportLine (e : Text × Text) : Text := "export ".toList ++ (e.1 ++ '=' :: quote e.2)

theorem exportLine_eq (e : Text × Text) :
    exportLine e = "export ".toList ++ (e.1 ++ '=' :: quote e.2) := rfl

def cdLine (cwd : Text) : Text := "cd ".toList ++ (quote cwd ++ " || exit 1".toList)

def execLine (argv : List Text) : Text := "exec ".toList ++ join argv

def cdLines : Option Text → List Text
  | some cwd => if cwd = [] then [] else [cdLine cwd]
  | none => []

def script (argv : List Text) (cwd : Option Text) (items : List (Text × Text)) : Text :=
  ['\n'].intercalate (cdLines cwd ++ items.map exportLine ++ [execLine argv])

/-- `none` is the ValueError of a name. -/
def buildScript (argv : List Text) (cwd : Option Text) (env : List (Text × Text)) : Option Text :=
  let items := orderBy toLex env
  if items.all fun e => envName e.1 then some ("/bin/sh -c ".toList ++ quote (script argv cwd items))
  else none

/-! ## 3. What is to be done with it -/

/-- The login shell is given the text, and has `/bin/sh` run the script. -/
def remote (sys : System) (text : Text) : Option Outcome :=
  (run sys text).bind fun o =>
    match o.events with
    | [.ran [shell, option, script]] =>
      if shell = "/bin/sh".toList ∧ option = "-c".toList then run sys script else none
    | _ => none

/-- An absolute folder. -/
structure Folder where
  path : Text
  absolute : path.head? = some '/'

/-- In the folder, or nothing but the end. -/
def entered (sys : System) (cwd : Option Folder) (behind : List Event) : List Event :=
  match cwd with
  | none => behind
  | some folder =>
    if sys.reaches folder.path then .changed folder.path :: behind else [.exited "1".toList]

/-- The folder, the variables, the command. -/
def expected (sys : System) (argv : List Text) (cwd : Option Folder) (env : List (Text × Text)) :
    List Event :=
  entered sys cwd ((orderBy toLex env).map (fun e => Event.exported e.1 e.2) ++ [.replaced argv])

/-- What the shell is given holds no NUL. -/
def NoNul (argv : List Text) (cwd : Option Folder) (env : List (Text × Text)) : Prop :=
  (∀ t ∈ argv, '\x00' ∉ t) ∧ (∀ folder ∈ cwd, '\x00' ∉ folder.path) ∧
    ∀ e ∈ env, '\x00' ∉ e.1 ∧ '\x00' ∉ e.2

/-! ## 4. Quotes -/

variable {word : Option Text} {text rest : Text} {c : Char}

theorem isSafe_plain (h : isSafe c = true) : isPlain c = true := h

/-- Between single quotes, up to the last. -/
theorem lex_quoted (acc text rest : Text) :
    lex .single (some acc) (quoted text ++ '\'' :: rest) = lex .bare (some (acc ++ text)) rest := by
  induction text generalizing acc with
  | nil =>
    rw [quoted, List.nil_append, lex, if_pos rfl, List.append_nil]
  | cons c text ih =>
    rw [quoted]
    by_cases hc : c = '\''
    · rw [if_pos hc]
      show lex .single (some acc)
        ('\'' :: '"' :: '\'' :: '"' :: '\'' :: (quoted text ++ '\'' :: rest)) = _
      rw [lex, if_pos rfl, lex, if_neg (by decide), if_pos rfl, lex, if_neg (by decide),
        if_neg (by decide), lex, if_pos rfl, lex_quote, grown_grown, grown_grown]
      simp only [grown, Option.getD_some, List.nil_append, List.append_nil]
      rw [ih, List.append_assoc, hc]
      rfl
    · rw [if_neg hc]
      show lex .single (some acc) (c :: (quoted text ++ '\'' :: rest)) = _
      rw [lex, if_neg hc]
      simp only [grown, Option.getD_some]
      rw [ih, List.append_assoc]
      rfl

/-- **A quoted text** is a part of a word that evaluates to the text. -/
theorem lex_quote_text (word : Option Text) (text rest : Text) :
    lex .bare word (quote text ++ rest) = lex .bare (grown word text) rest := by
  rw [quote]
  by_cases hnil : text = []
  · rw [if_pos hnil, hnil]
    show lex .bare word ('\'' :: '\'' :: rest) = _
    rw [lex_quote, lex, if_pos rfl]
  rw [if_neg hnil]
  by_cases hsafe : text.all isSafe = true
  · rw [if_pos hsafe]
    exact lex_plain (fun c hc => isSafe_plain (List.all_eq_true.mp hsafe c hc)) hnil
  · rw [if_neg hsafe, List.cons_append, List.append_assoc, lex_quote]
    refine (lex_quoted (word.getD [] ++ []) text rest).trans ?_
    rw [List.append_nil]
    rfl

theorem mem_quoted (hc : c ≠ '\'' ∧ c ≠ '"') : c ∈ quoted text ↔ c ∈ text := by
  induction text with
  | nil => exact Iff.rfl
  | cons d text ih =>
    rw [quoted, List.mem_append, List.mem_cons, ih]
    refine or_congr ?_ Iff.rfl
    by_cases hd : d = '\''
    · rw [if_pos hd, hd]
      simp [hc.1, hc.2]
    · rw [if_neg hd, List.mem_singleton]

theorem mem_quote (hc : c ≠ '\'' ∧ c ≠ '"') : c ∈ quote text ↔ c ∈ text := by
  rw [quote]
  by_cases hnil : text = []
  · rw [if_pos hnil, hnil]
    simp [hc.1]
  rw [if_neg hnil]
  by_cases hsafe : text.all isSafe = true
  · rw [if_pos hsafe]
  · rw [if_neg hsafe, List.mem_cons, List.mem_append, List.mem_singleton, mem_quoted hc]
    simp [hc.1]

/-! ## 5. The lines of a script -/

variable {sys : System} {argv : List Text} {name value : Text} {e : Text × Text}
    {items env : List (Text × Text)}

theorem lex_join (program : Text) (arguments : List Text) (word : Option Text) :
    lex .bare word (join (program :: arguments)) =
      some (.word (word.getD [] ++ program) :: arguments.map .word) := by
  induction arguments generalizing program word with
  | nil =>
    have h := lex_quote_text word program []
    rw [List.append_nil] at h
    rw [join, List.map_singleton, List.intercalate_singleton, h]
    rfl
  | cons next arguments ih =>
    have h : join (program :: next :: arguments) = quote program ++ ' ' :: join
      (next :: arguments) := by
      simp [join, List.intercalate]
    rw [h, lex_quote_text, lex_blank, ih]
    rfl

theorem lex_execLine (program : Text) (arguments : List Text) :
    lex .bare none (execLine (program :: arguments)) =
      some (.word "exec".toList :: .word program :: arguments.map .word) := by
  have h : execLine (program :: arguments) = "exec".toList ++ ' ' :: join (program :: arguments) := rfl
  rw [h, lex_word (List.all_eq_true.mp (by decide)) (by decide), lex_join]
  rfl

theorem lex_cdLine (cwd : Text) : lex .bare none (cdLine cwd) =
    some [.word "cd".toList, .word cwd, .orIf, .word "exit".toList, .word "1".toList] := by
  have h : cdLine cwd = "cd".toList ++ ' ' :: (quote cwd ++ " || exit 1".toList) := rfl
  have hend : lex .bare (some cwd) " || exit 1".toList =
      some [.word cwd, .orIf, .word "exit".toList, .word "1".toList] := rfl
  rw [h, lex_word (List.all_eq_true.mp (by decide)) (by decide), lex_quote_text]
  show (lex .bare (some cwd) " || exit 1".toList).map _ = _
  rw [hend]
  rfl

theorem isName_plain (h : isName name = true) : (∀ c ∈ name, isPlain c = true ∧ c ≠ '=') ∧
    name ≠ [] := by
  cases name with
  | nil => cases h
  | cons c rest =>
    obtain ⟨hc, hrest⟩ := Bool.and_eq_true_iff.mp h
    have hstart : ∀ d, isNameStart d = true → isPlain d = true ∧ d ≠ '=' := by
      intro d hd
      rcases Bool.or_eq_true_iff.mp hd with hd | hd
      · refine ⟨by simp [isPlain, Char.isAlphanum, hd], ?_⟩
        rintro rfl
        exact absurd hd (by decide)
      · rw [beq_iff_eq.mp hd]
        decide
    refine ⟨fun d hd => ?_, List.cons_ne_nil c rest⟩
    rcases List.mem_cons.mp hd with rfl | hd
    · exact hstart d hc
    · rcases Bool.or_eq_true_iff.mp (List.all_eq_true.mp hrest d hd) with hd | hd
      · exact hstart d hd
      · refine ⟨by simp [isPlain, Char.isAlphanum, hd], ?_⟩
        rintro rfl
        exact absurd hd (by decide)

theorem lex_exportLine (h : isName name = true) (value : Text) :
    lex .bare none (exportLine (name, value)) =
      some [.word "export".toList, .word (name ++ '=' :: value)] := by
  obtain ⟨hplain, hne⟩ := isName_plain h
  have hline : exportLine (name, value) = "export".toList ++ ' ' :: (name ++ '=' :: quote value) := rfl
  have hquote := lex_quote_text (grown (grown none name) ['=']) value []
  rw [List.append_nil] at hquote
  rw [hline, lex_word (List.all_eq_true.mp (by decide)) (by decide),
    lex_plain (fun c hc => (hplain c hc).1) hne,
    lex_plain_char (by decide), hquote, grown_grown, grown_grown]
  simp [lex, ended, grown]

theorem lex_marked (h : isName name = true) :
    lex .bare none ("export ".toList ++ name) = some [.word "export".toList, .word name] := by
  obtain ⟨hplain, hne⟩ := isName_plain h
  have hline : "export ".toList ++ name = "export".toList ++ ' ' :: (name ++ []) := by
    rw [List.append_nil]
    rfl
  rw [hline, lex_word (List.all_eq_true.mp (by decide)) (by decide),
    lex_plain (fun c hc => (hplain c hc).1) hne]
  simp [lex, ended, grown]

theorem lex_value (value : Text) :
    lex .bare none ('=' :: quote value) = some [.word ('=' :: value)] := by
  have hquote := lex_quote_text (grown none ['=']) value []
  rw [List.append_nil] at hquote
  rw [lex_plain_char (by decide), hquote, grown_grown]
  simp [lex, ended, grown]

theorem takeWhile_name (h : isName name = true) (value : Text) :
    (name ++ '=' :: value).takeWhile (· != '=') = name := by
  have hname : ∀ c ∈ name, (c != '=') = true := fun c hc => by simpa using ((isName_plain h).1 c hc).2
  rw [List.takeWhile_append_of_pos hname]
  simp

theorem runLine_export (h : isName name = true) (value : Text) :
    runLine sys [.word "export".toList, .word (name ++ '=' :: value)] =
      if sys.special name then none else some (.done [.exported name value]) := by
  have hone : exportOne sys (name ++ '=' :: value) =
      if sys.special name then none else some (.done [.exported name value]) := by
    rw [exportOne, takeWhile_name h, h, List.drop_left' rfl]
    cases sys.special name <;> rfl
  show ((exportOne sys (name ++ '=' :: value)).bind fun o => _) = _
  rw [hone]
  cases sys.special name <;> rfl

theorem runLine_marked (h : isName name = true) :
    runLine sys [.word "export".toList, .word name] =
      if sys.special name then none else some (.done [.marked name]) := by
  have hname : ∀ c ∈ name, (c != '=') = true := fun c hc => by simpa using ((isName_plain h).1 c hc).2
  have htake : name.takeWhile (· != '=') = name := by
    have hall : (name ++ []).takeWhile (· != '=') = name ++ [].takeWhile (· != '=') :=
      List.takeWhile_append_of_pos hname
    rwa [List.append_nil, List.takeWhile_nil, List.append_nil] at hall
  have hone : exportOne sys name =
      if sys.special name then none else some (.done [.marked name]) := by
    rw [exportOne, htake, h, List.drop_length]
    cases sys.special name <;> rfl
  show ((exportOne sys name).bind fun o => _) = _
  rw [hone]
  cases sys.special name <;> rfl

/-- The value of a variable whose name ended with the line. -/
theorem runLine_value (sys : System) (value : Text) : ∃ succeeded,
    runLine sys [.word ('=' :: value)] = some ⟨[.ran ['=' :: value]], succeeded, false⟩ := by
  refine ⟨sys.succeeds ['=' :: value], ?_⟩
  show ((command sys ['=' :: value]).bind fun o => _) = _
  have hprogram : isProgram ('=' :: value) = true := by
    simp [isProgram, isName]
  rw [command, if_neg (by simp), if_neg (by simp), if_neg (by simp), if_neg (by simp), if_pos hprogram]
  cases hs : sys.succeeds ['=' :: value] with
  | true => simp
  | false => simp [Outcome.followed, tryEach]

theorem alternatives_words (words others : List Text) :
    alternatives words (others.map .word) = some [words ++ others] := by
  induction others generalizing words with
  | nil => rw [List.map_nil, alternatives, List.append_nil]
  | cons w others ih => rw [List.map_cons, alternatives, ih, List.append_assoc, List.singleton_append]

theorem runLine_exec (sys : System) (program : Text) (arguments : List Text) :
    runLine sys (.word "exec".toList :: .word program :: arguments.map .word) =
      if program.head? = some '-' then none else some (.last (.replaced (program :: arguments))) := by
  have hwords := alternatives_words [] ("exec".toList :: program :: arguments)
  rw [runLine, if_neg (List.cons_ne_nil _ _)]
  show (alternatives [] (("exec".toList :: program :: arguments).map Token.word)).bind _ = _
  rw [hwords]
  show ((if program.head? = some '-' then none else some _).bind fun o => _) = _
  split <;> rfl

theorem runLine_cd (sys : System) (cwd : Folder) :
    runLine sys [.word "cd".toList, .word cwd.path, .orIf, .word "exit".toList, .word "1".toList] =
      some (if sys.reaches cwd.path then .done [.changed cwd.path]
        else .last (.exited "1".toList)) := by
  show tryEach sys ["cd".toList :: [cwd.path], "exit".toList :: ["1".toList]] = _
  have hcd : command sys ["cd".toList, cwd.path] =
      some (if sys.reaches cwd.path then .done [.changed cwd.path] else ⟨[], false, false⟩) := by
    rw [command, if_pos rfl]
    show (if cwd.path.head? = some '/' then _ else none) = _
    rw [if_pos cwd.absolute]
  rw [tryEach, hcd]
  cases sys.reaches cwd.path with
  | true | false => rfl

/-! ## 6. The script, line after line -/

/-- What is done with a line of a variable. -/
def lineEvents (e : Text × Text) : List Event :=
  if e.1.getLast? = some '\n' then [.marked e.1.dropLast, .ran ['=' :: e.2]] else [.exported e.1 e.2]

def following (items : List (Text × Text)) (last : Text) : Text :=
  items.foldr (fun e behind => exportLine e ++ '\n' :: behind) last

/-- A name that is accepted, with the line break at its end. -/
theorem envName_cases (h : envName name = true) :
    (name.getLast? ≠ some '\n' ∧ unbroken name = name ∧ isName name = true) ∨
      ∃ front, name = front ++ ['\n'] ∧ unbroken name = front ∧ isName front = true := by
  rw [envName] at h
  by_cases hlast : name.getLast? = some '\n'
  · obtain ⟨front, rfl⟩ := List.getLast?_eq_some_iff.mp hlast
    have hfront : unbroken (front ++ ['\n']) = front := by
      rw [unbroken, if_pos hlast, List.dropLast_concat]
    exact .inr ⟨front, rfl, hfront, hfront ▸ h⟩
  · have hsame : unbroken name = name := if_neg hlast
    exact .inl ⟨hlast, hsame, hsame ▸ h⟩

theorem exportLine_broken (front value behind : Text) :
    exportLine (front ++ ['\n'], value) ++ '\n' :: behind =
      ("export ".toList ++ front) ++ '\n' :: (('=' :: quote value) ++ '\n' :: behind) := by
  have hparts : ∀ a b c : Text, (a ++ ((front ++ ['\n']) ++ b)) ++ '\n' :: c =
      (a ++ front) ++ '\n' :: (b ++ '\n' :: c) := fun a b c => by simp
  exact hparts "export ".toList ('=' :: quote value) behind

theorem lexed_following {last : Text} (hlast : (lex .bare none last).isSome)
    (hnames : ∀ e ∈ items, envName e.1 = true) : (lex .bare none (following items last)).isSome := by
  induction items with
  | nil => exact hlast
  | cons e items ih =>
    have hrest := ih fun d hd => hnames d (List.mem_cons_of_mem e hd)
    obtain ⟨others, hothers⟩ := Option.isSome_iff_exists.mp hrest
    show (lex .bare none (exportLine e ++ '\n' :: following items last)).isSome
    obtain ⟨name, value⟩ := e
    rcases envName_cases (hnames _ List.mem_cons_self) with ⟨-, -, hname⟩ | ⟨front, hfront, -, hname⟩
    · rw [lex_line (lex_exportLine hname value), hothers]
      rfl
    · obtain rfl : name = front ++ ['\n'] := hfront
      rw [exportLine_broken, lex_line (lex_marked hname), lex_line (lex_value value), hothers]
      rfl

theorem lexed_value (hrest : (lex .bare none rest).isSome) (value : Text) :
    (lex .bare none (('=' :: quote value) ++ '\n' :: rest)).isSome := by
  obtain ⟨others, hothers⟩ := Option.isSome_iff_exists.mp hrest
  rw [lex_line (lex_value value), hothers]
  rfl

/-- The line of a variable, and what follows. -/
theorem execute_exportLine (hname : envName name = true) (hrest : (lex .bare none rest).isSome) :
    execute sys (exportLine (name, value) ++ '\n' :: rest) =
      if sys.special (unbroken name) then none
      else (execute sys rest).map fun p =>
        { p with events := lineEvents (name, value) ++ p.events } := by
  rcases envName_cases hname with ⟨hline, hsame, hplain⟩ | ⟨front, rfl, hsame, hplain⟩
  · have hown : lineEvents (name, value) = [.exported name value] := if_neg hline
    rw [execute_line (lex_exportLine hplain value) (by simp) hrest, runLine_export hplain, hown, hsame]
    cases sys.special name <;> cases execute sys rest <;> rfl
  · have hown : lineEvents (front ++ ['\n'], value) = [.marked front, .ran ['=' :: value]] := by
      rw [lineEvents, if_pos (by simp), List.dropLast_concat]
    obtain ⟨succeeded, hvalue⟩ := runLine_value sys value
    rw [exportLine_broken, execute_line (lex_marked hplain) (by simp) (lexed_value hrest value),
      runLine_marked hplain, execute_line (lex_value value) (by simp) hrest, hvalue, hown, hsame]
    cases sys.special front <;> cases execute sys rest <;> rfl

/-- **Every variable, then what follows.** -/
theorem execute_following {last : Text} (hlast : (lex .bare none last).isSome)
    (hnames : ∀ e ∈ items, envName e.1 = true) : execute sys (following items last) =
      if items.any fun e => sys.special (unbroken e.1) then none
      else (execute sys last).map fun o =>
        { o with events := items.flatMap lineEvents ++ o.events } := by
  induction items with
  | nil => exact Option.map_id.symm ▸ rfl
  | cons e items ih =>
    have hitems : ∀ d ∈ items, envName d.1 = true := fun d hd => hnames d (List.mem_cons_of_mem e hd)
    have hcons : following (e :: items) last = exportLine e ++ '\n' :: following items last := rfl
    rw [hcons, execute_exportLine (hnames e List.mem_cons_self) (lexed_following hlast hitems),
      ih hitems,
      List.any_cons]
    cases sys.special (unbroken e.1) with
    | true => rfl
    | false =>
      cases items.any fun e => sys.special (unbroken e.1) with
      | true => rfl
      | false => cases execute sys last <;> simp

/-! ## 7. The whole text -/

/-- What is done with the text of the script. -/
def done (sys : System) (argv : List Text) (cwd : Option Folder) (items : List (Text × Text)) :
    List Event :=
  entered sys cwd (items.flatMap lineEvents ++ [.replaced argv])

theorem intercalate_following (argv : List Text) (items : List (Text × Text)) :
    ['\n'].intercalate (items.map exportLine ++ [execLine argv]) = following items (execLine argv) := by
  induction items with
  | nil => simp [following, List.intercalate]
  | cons e items ih =>
    have hcons : following (e :: items) (execLine argv) =
        exportLine e ++ '\n' :: following items (execLine argv) := rfl
    rw [hcons, ← ih]
    cases items <;> simp [List.intercalate]

theorem script_none (argv : List Text) (items : List (Text × Text)) :
    script argv none items = following items (execLine argv) := by
  rw [script, cdLines, List.nil_append, intercalate_following]

theorem script_some (argv : List Text) (cwd : Folder) (items : List (Text × Text)) :
    script argv (some cwd.path) items = cdLine cwd.path ++ '\n' :: following items (execLine argv) := by
  have hne : cwd.path ≠ [] := by
    intro h
    have hslash := cwd.absolute
    rw [h] at hslash
    cases hslash
  rw [script, cdLines, if_neg hne, ← intercalate_following]
  cases items <;> simp [List.intercalate]

theorem execute_execLine (sys : System) (program : Text) (arguments : List Text) :
    execute sys (execLine (program :: arguments)) =
      if program.head? = some '-' then none else some (.last (.replaced (program :: arguments))) := by
  have htokens : ∀ (line : List Token) (ws : List Text),
      runTokens sys line (ws.map .word) = runLine sys (line ++ ws.map .word) := by
    intro line ws
    induction ws generalizing line with
    | nil => rw [List.map_nil, List.append_nil, runTokens]
    | cons w ws ih =>
      have hnext := ih (line ++ [.word w])
      rw [List.append_assoc] at hnext
      exact hnext
  rw [execute, lex_execLine]
  exact (htokens [] ("exec".toList :: program :: arguments)).trans (runLine_exec sys program arguments)

/-- The shell keeps no variable for itself, and takes the program for no option. -/
def Taken (special : Text → Bool) (program : Text) (items : List (Text × Text)) : Prop :=
  (∀ e ∈ items, special (unbroken e.1) = false) ∧ program.head? ≠ some '-'

/-- **The script**: what its lines do. -/
theorem execute_script (sys : System) (program : Text) (arguments : List Text) (cwd : Option Folder)
    (hnames : ∀ e ∈ items, envName e.1 = true) :
    (Taken sys.special program items →
      (execute sys (script (program :: arguments) (cwd.map Folder.path) items)).map Outcome.events =
        some (done sys (program :: arguments) cwd items)) ∧
    (¬Taken sys.special program items → (∀ folder, sys.reaches folder = true) →
      execute sys (script (program :: arguments) (cwd.map Folder.path) items) = none) := by
  have hlast : (lex .bare none (execLine (program :: arguments))).isSome := by
    rw [lex_execLine]
    rfl
  have hany : items.any (fun e => sys.special (unbroken e.1)) = false ↔
      ∀ e ∈ items, sys.special (unbroken e.1) = false := by
    simp
  have hbehind := @execute_following sys _ _ hlast hnames
  rw [execute_execLine] at hbehind
  have hcd : ∀ folder : Folder,
    execute sys (script (program :: arguments) (some folder.path) items) = _ :=
    fun folder => by
      rw [script_some, execute_line (lex_cdLine folder.path) (by simp) (lexed_following hlast hnames),
        runLine_cd]
  constructor
  · rintro ⟨hfree, hdash⟩
    rw [hany.mpr hfree, if_neg hdash] at hbehind
    cases cwd with
    | none =>
      rw [Option.map_none, script_none, hbehind]
      rfl
    | some folder =>
      rw [Option.map_some, hcd, hbehind, done, entered]
      cases sys.reaches folder.path <;> rfl
  · intro htaken hreaches
    have hnone : execute sys (following items (execLine (program :: arguments))) = none := by
      rw [hbehind]
      split
      · rfl
      · next hfree =>
        rw [Bool.not_eq_true, hany] at hfree
        rw [if_pos (not_not.mp fun hdash => htaken ⟨hfree, hdash⟩)]
        rfl
    cases cwd with
    | none => rw [Option.map_none, script_none, hnone]
    | some folder =>
      rw [Option.map_some, hcd, hnone, hreaches]
      rfl

def shArgv (text : Text) : List Text := ["/bin/sh".toList, "-c".toList, text]

theorem lex_sh (text : Text) :
    lex .bare none ("/bin/sh -c ".toList ++ quote text) = some ((shArgv text).map .word) := by
  have hparts : "/bin/sh -c ".toList ++ quote text =
      "/bin/sh".toList ++ ' ' :: ("-c".toList ++ ' ' :: quote text) := rfl
  have hquote := lex_quote_text none text []
  rw [List.append_nil] at hquote
  rw [hparts, lex_word (List.all_eq_true.mp (by decide)) (by decide),
    lex_word (List.all_eq_true.mp (by decide)) (by decide), hquote]
  rfl

theorem execute_sh (sys : System) (text : Text) : ∃ succeeded,
    execute sys ("/bin/sh -c ".toList ++ quote text) =
      some ⟨[.ran (shArgv text)], succeeded, false⟩ := by
  refine ⟨sys.succeeds (shArgv text), ?_⟩
  have hcommand : command sys (shArgv text) =
      some ⟨[.ran (shArgv text)], sys.succeeds (shArgv text), false⟩ := rfl
  have hline : runLine sys ((shArgv text).map .word) = (command sys (shArgv text)).bind fun o =>
      if o.succeeded then some o else o.followed (tryEach sys []) := rfl
  rw [execute, lex_sh, Option.bind_some]
  show runLine sys ((shArgv text).map .word) = _
  rw [hline, hcommand, Option.bind_some]
  cases sys.succeeds (shArgv text) with
  | true | false => rfl

theorem mem_text {c : Char} (hc : c ≠ '\'' ∧ c ≠ '"') (hsh : c ∉ "/bin/sh -c ".toList) (text : Text) :
    c ∈ "/bin/sh -c ".toList ++ quote text ↔ c ∈ text := by
  rw [List.mem_append, mem_quote hc]
  exact or_iff_right hsh

/-- The login shell has `/bin/sh` run the script. -/
theorem remote_text (sys : System) (text : Text) (hnul : '\x00' ∉ text) :
    remote sys ("/bin/sh -c ".toList ++ quote text) = execute sys text := by
  have houter : '\x00' ∉ "/bin/sh -c ".toList ++ quote text := fun h =>
    hnul ((mem_text (by decide) (by decide) text).mp h)
  obtain ⟨succeeded, hsh⟩ := execute_sh sys text
  rw [remote, run, if_neg (by simpa using houter), hsh]
  show run sys text = _
  rw [run, if_neg (by simpa using hnul)]

theorem remote_nul (sys : System) (text : Text) (hnul : '\x00' ∈ text) :
    remote sys ("/bin/sh -c ".toList ++ quote text) = none := by
  have houter : '\x00' ∈ "/bin/sh -c ".toList ++ quote text :=
    (mem_text (by decide) (by decide) text).mpr hnul
  rw [remote, run, if_pos (by simpa using houter)]
  rfl

/-! ## 8. What holds a NUL -/

theorem mem_following {c : Char} {last : Text} (hc : c ≠ '\'' ∧ c ≠ '"' ∧ c ≠ '\n' ∧ c ≠ '=')
    (hword : c ∉ "export ".toList) : c ∈ following items last ↔
      (∃ e ∈ items, c ∈ e.1 ∨ c ∈ e.2) ∨ c ∈ last := by
  induction items with
  | nil => simp [following]
  | cons e items ih =>
    have hcons : following (e :: items) last = exportLine e ++ '\n' :: following items last := rfl
    have hline : c ∈ exportLine e ↔ c ∈ e.1 ∨ c ∈ e.2 := by
      rw [exportLine_eq, List.mem_append, List.mem_append, List.mem_cons, mem_quote ⟨hc.1, hc.2.1⟩]
      exact (or_iff_right hword).trans (or_congr Iff.rfl (or_iff_right hc.2.2.2))
    rw [hcons, List.mem_append, List.mem_cons, ih, hline]
    simp only [hc.2.2.1, false_or, List.exists_mem_cons_iff, or_assoc]

theorem mem_execLine {c : Char} (hc : c ≠ '\'' ∧ c ≠ '"') (hword : c ∉ "exec ".toList) :
    c ∈ execLine argv ↔ ∃ t ∈ argv, c ∈ t := by
  have hjoin : ∀ argv : List Text, c ∈ join argv ↔ ∃ t ∈ argv, c ∈ t := by
    intro argv
    have hblank : c ≠ ' ' := fun h => hword (h ▸ by decide)
    induction argv with
    | nil => simp [join, List.intercalate]
    | cons t argv ih =>
      cases argv with
      | nil =>
        rw [join, List.map_singleton, List.intercalate_singleton, mem_quote hc]
        simp
      | cons next argv =>
        have hcons : join (t :: next :: argv) = quote t ++ ' ' :: join (next :: argv) := by
          simp [join, List.intercalate]
        rw [hcons, List.mem_append, List.mem_cons, mem_quote hc, or_iff_right hblank,
          List.exists_mem_cons_iff]
        exact or_congr Iff.rfl ih
  rw [execLine, List.mem_append, hjoin]
  exact or_iff_right hword

theorem mem_cdLine {c : Char} {cwd : Text} (hc : c ≠ '\'' ∧ c ≠ '"') (hcd : c ∉ "cd ".toList)
    (hexit : c ∉ " || exit 1".toList) : c ∈ cdLine cwd ↔ c ∈ cwd := by
  rw [cdLine, List.mem_append, List.mem_append, mem_quote hc]
  exact (or_iff_right hcd).trans (or_iff_left hexit)

theorem nul_script (argv : List Text) (cwd : Option Folder) (env : List (Text × Text)) :
    '\x00' ∉ script argv (cwd.map Folder.path) (orderBy toLex env) ↔ NoNul argv cwd env := by
  have hfollowing : '\x00' ∈ following (orderBy toLex env) (execLine argv) ↔
      (∃ e ∈ orderBy toLex env, '\x00' ∈ e.1 ∨ '\x00' ∈ e.2) ∨ '\x00' ∈ execLine argv :=
    mem_following (by decide) (by decide)
  have hexec : '\x00' ∈ execLine argv ↔ ∃ t ∈ argv, '\x00' ∈ t := mem_execLine (by decide) (by decide)
  have hitems : (∃ e ∈ orderBy toLex env, '\x00' ∈ e.1 ∨ '\x00' ∈ e.2) ↔
      ∃ e ∈ env, '\x00' ∈ e.1 ∨ '\x00' ∈ e.2 :=
    exists_congr fun e => and_congr_left fun _ => (orderBy_perm _ _).mem_iff
  rw [hexec, hitems] at hfollowing
  cases cwd with
  | none =>
    rw [Option.map_none, script_none, hfollowing]
    constructor
    · intro h
      exact ⟨fun t ht hc => h (.inr ⟨t, ht, hc⟩), nofun, fun e he =>
        ⟨fun hc => h (.inl ⟨e, he, .inl hc⟩), fun hc => h (.inl ⟨e, he, .inr hc⟩)⟩⟩
    · rintro ⟨hargv, -, henv⟩ (⟨e, he, hc | hc⟩ | ⟨t, ht, hc⟩)
      · exact (henv e he).1 hc
      · exact (henv e he).2 hc
      · exact hargv t ht hc
  | some folder =>
    rw [Option.map_some, script_some, List.mem_append, List.mem_cons, hfollowing,
      mem_cdLine (by decide) (by decide) (by decide), or_iff_right (by decide : '\x00' ≠ '\n')]
    constructor
    · intro h
      exact ⟨fun t ht hc => h (.inr (.inr ⟨t, ht, hc⟩)),
        fun f hf hc => h (.inl (Option.some.inj hf ▸ hc)), fun e he =>
        ⟨fun hc => h (.inr (.inl ⟨e, he, .inl hc⟩)), fun hc => h (.inr (.inl ⟨e, he, .inr hc⟩))⟩⟩
    · rintro ⟨hargv, hcwd, henv⟩ (hc | ⟨e, he, hc | hc⟩ | ⟨t, ht, hc⟩)
      · exact hcwd folder rfl hc
      · exact (henv e he).1 hc
      · exact (henv e he).2 hc
      · exact hargv t ht hc

/-! ## 9. What a server runs -/

theorem buildScript_some {cwd : Option Text} {text : Text} (h : buildScript argv cwd env = some text) :
    (∀ e ∈ orderBy toLex env, envName e.1 = true) ∧
      text = "/bin/sh -c ".toList ++ quote (script argv cwd (orderBy toLex env)) := by
  rw [buildScript] at h
  obtain ⟨hall, htext⟩ := Option.ite_none_right_eq_some.mp h
  exact ⟨List.all_eq_true.mp hall, (Option.some.inj htext).symm⟩

/-- Only a name that ends in a line break makes another line. -/
theorem done_eq (hnames : ∀ e ∈ env, e.1.getLast? ≠ some '\n') (sys : System) (cwd : Option Folder) :
    done sys argv cwd (orderBy toLex env) = expected sys argv cwd env := by
  have hlines : (orderBy toLex env).flatMap lineEvents =
      (orderBy toLex env).map fun e => Event.exported e.1 e.2 := by
    rw [← List.flatMap_pure_eq_map]
    refine List.flatMap_congr fun e he => ?_
    exact if_neg (hnames e ((orderBy_perm _ _).mem_iff.mp he))
  rw [done, expected, hlines]

/-- On a server whose folders are all there, every line is reached. -/
theorem mem_entered {cwd : Option Folder} {sys : System} {behind : List Event} {event : Event}
    (hreaches : ∀ folder, sys.reaches folder = true) (hevent : ∀ folder, event ≠ .changed folder) :
    event ∈ entered sys cwd behind ↔ event ∈ behind := by
  cases cwd with
  | none => exact Iff.rfl
  | some folder =>
    rw [entered, if_pos (hreaches _), List.mem_cons]
    exact or_iff_right (hevent folder.path)

theorem name_of_done {cwd : Option Folder} {sys : System}
    (hreaches : ∀ folder, sys.reaches folder = true)
    (h : done sys argv cwd (orderBy toLex env) = expected sys argv cwd env) :
    ∀ e ∈ env, e.1.getLast? ≠ some '\n' := by
  intro e he hline
  have hmem : Event.marked e.1.dropLast ∈ (orderBy toLex env).flatMap lineEvents := by
    refine List.mem_flatMap.mpr ⟨e, (orderBy_perm _ _).mem_iff.mpr he, ?_⟩
    rw [lineEvents, if_pos hline]
    exact List.mem_cons_self
  have hevent : ∀ folder, Event.marked e.1.dropLast ≠ .changed folder := fun _ h => nomatch h
  have hmarked : Event.marked e.1.dropLast ∈ done sys argv cwd (orderBy toLex env) :=
    (mem_entered hreaches hevent).mpr (List.mem_append_left [Event.replaced argv] hmem)
  rw [h, expected, mem_entered hreaches hevent] at hmarked
  simp at hmarked

end Dbs.Remote.Scripts
