/-
  File:      Dbs/Throttle.lean
  Subject:   THE THROTTLE OF SIGN-INS (accounts/throttle.py and sign_in_service.py): every attempt is
             counted before its password or code is looked at, and given back after a success.

  Any number of attempts at once, one cache call of one attempt at a time; a counter's entry expires
  whenever it likes. Whether a name has to wait, and whether the password or the code is right, is the
  environment's to say.

  * `SignIn.limits` -- the counters of an attempt; `advance` -- its next call;
  * `Store.wrong`, `Store.lowered` -- what was evaluated, and which entries were lowered by whom;
  * `Bounded`, `Own` -- no counter's entry sees more wrong guesses than its limit, and none is lowered
    by an attempt that it did not count;
  * `Alone` -- an entry is made only when no attempt is under way that an earlier one counted;
  * `guesses_bounded` -- both, in every run whose entries are made so;
  * `lowered_by_a_stranger` -- and a run that is not.
-/
import Dbs.Lib.Caching
import Dbs.Lib.Runs
import Mathlib.Tactic.Ring
import Mathlib.Tactic.Linarith
import Mathlib.Data.List.Perm.Basic

namespace Dbs.Throttle

open Caching

/-! ## 1. The counters of an attempt -/

structure Settings where
  authFailuresPerUser : Nat
  authFailuresPerAddress : Nat

/-- The names that are counted. -/
inductive Key
  | pair (text : String)
  | address (address : String)
  | name (name : String)
  | codeUser (user : Nat)
  | codeAddress (address : String)
deriving DecidableEq

/-- `password(username, …)` from an address, with `username.casefold()`; or a code of a user, in
    `second_factor` or `enroll`. -/
inductive SignIn
  | password (name address : String)
  | code (user : Nat) (name address : String)

variable (s : Settings)

/-- What a counter is compared with; the failures of a name only make it wait. -/
def Key.limit : Key → Option Nat
  | .pair _ => some s.authFailuresPerUser
  | .address _ => some s.authFailuresPerAddress
  | .name _ => none
  | .codeUser _ => some s.authFailuresPerUser
  | .codeAddress _ => some s.authFailuresPerAddress

namespace SignIn

def limits : SignIn → List (Key × Nat)
  | .password name address =>
    [(.pair (address ++ ":" ++ name), s.authFailuresPerUser),
      (.address address, s.authFailuresPerAddress)]
  | .code user _ address =>
    [(.codeUser user, s.authFailuresPerUser), (.codeAddress address, s.authFailuresPerAddress)]

/-- `throttle.cleared` after a success. -/
def clears : SignIn → Key
  | .password name address => .pair (address ++ ":" ++ name)
  | .code user _ _ => .codeUser user

/-- `throttle.given_back` after a success. -/
def returns : SignIn → Key
  | .password _ address => .address address
  | .code _ _ address => .codeAddress address

/-- `throttle.slowed` after a wrong password. -/
def slows : SignIn → Option Key
  | .password name _ => some (.name name)
  | .code _ _ _ => none

/-- `throttle.unslowed` after a right code. -/
def unslows : SignIn → Option Key
  | .password _ _ => none
  | .code _ name _ => some (.name name)

end SignIn

/-! ## 2. Attempts -/

/-- An attempt was counted in the entry of that life, with that result. -/
structure Count where
  key : Key
  limit : Nat
  life : Nat
  value : Int

/-- Which call of `_count` comes next. -/
inductive Stage
  | add
  | incr
  /-- `incr` found nothing. -/
  | set

inductive Phase
  | counting (stage : Stage) (name : Key × Nat) (rest : List (Key × Nat))
  | evaluating
  | clearing
  /-- `given_back(names)`, and then `unslowed` if there is a name for it. -/
  | givingBack (names : List Key) (unslow : Option Key)
  | slowing (stage : Stage) (name : Key)

/-- `counts`: where it was counted and not yet evaluated wrong, cleared or given back. -/
structure Attempt where
  signIn : SignIn
  counts : List Count
  phase : Phase

/-- A wrong password or code was evaluated: one entry for each counter that had counted it, and the
    life of the counter's entry at that moment. -/
structure Wrong where
  key : Key
  counted : Nat
  standing : Option Nat

/-- An entry was lowered, cleared or overwritten by an attempt counted there, or elsewhere. -/
structure Lowered where
  key : Key
  counted : Option Nat
  entry : Nat

/-- The counters, and what was done with them. -/
structure Store where
  cache : Cache Key Int
  wrong : List Wrong
  lowered : List Lowered

namespace Store

variable (st : Store) (key : Key) (counted : Option Nat)

def lowers : List Lowered :=
  ((st.cache.entries key).map fun e => ⟨key, counted, e.life⟩).toList

/-- `cache.add(key, 0)`. -/
def add : Store := { st with cache := st.cache.add key 0 }

/-- `cache.incr(key)`. -/
def incr : Store := { st with cache := st.cache.modify key (· + 1) }

/-- `cache.set(key, 1)`. -/
def set : Store :=
  { st with cache := st.cache.set key 1, lowered := st.lowered ++ st.lowers key none }

/-- `cache.decr(key)`; a key that is missing is passed over. -/
def decr : Store :=
  { st with cache := st.cache.modify key (· - 1), lowered := st.lowered ++ st.lowers key counted }

/-- `cache.delete_many` of a counter. -/
def clear : Store :=
  { st with cache := st.cache.remove key, lowered := st.lowered ++ st.lowers key counted }

/-- The entry expires, or is deleted with the name's waiting time. -/
def remove : Store := { st with cache := st.cache.remove key }

end Store

/-- `all(count <= limit for count, limit in counts)`. -/
def within (counts : List Count) : Bool := counts.all fun c => c.value ≤ c.limit

namespace Attempt

variable (a : Attempt)

/-- The loop of `counted` goes on to the next name, or compares. -/
def goOn (counts : List Count) : List (Key × Nat) → Attempt
  | name :: rest => ⟨a.signIn, counts, .counting .add name rest⟩
  | [] => ⟨a.signIn, counts,
      if within counts then .evaluating else .givingBack (counts.map Count.key) none⟩

def countedIn (key : Key) : Option Nat := (a.counts.find? fun c => c.key = key).map Count.life

def wrongs (st : Store) : List Wrong :=
  a.counts.map fun c => ⟨c.key, c.life, (st.cache.entries c.key).map Entry.life⟩

/-- The next call of the attempt, and what is left of it; `right` says what an evaluation finds. -/
def advance (st : Store) (right : Bool) : Store × Option Attempt :=
  match a.phase with
  | .counting .add name rest => (st.add name.1, some { a with phase := .counting .incr name rest })
  | .counting .incr name rest =>
    match st.cache.entries name.1 with
    | none => (st, some { a with phase := .counting .set name rest })
    | some e =>
      (st.incr name.1, some (a.goOn (a.counts ++ [⟨name.1, name.2, e.life, e.value + 1⟩]) rest))
  | .counting .set name rest =>
    (st.set name.1, some (a.goOn (a.counts ++ [⟨name.1, name.2, st.cache.lives, 1⟩]) rest))
  | .evaluating =>
    if right then (st, some { a with phase := .clearing })
    else ({ st with wrong := st.wrong ++ a.wrongs st },
      a.signIn.slows.map fun name => ⟨a.signIn, [], .slowing .add name⟩)
  | .clearing =>
    (st.clear a.signIn.clears (a.countedIn a.signIn.clears),
      some ⟨a.signIn, a.counts.filter fun c => c.key ≠ a.signIn.clears,
        .givingBack [a.signIn.returns] a.signIn.unslows⟩)
  | .givingBack (key :: names) unslow =>
    (st.decr key (a.countedIn key),
      some ⟨a.signIn, a.counts.filter fun c => c.key ≠ key, .givingBack names unslow⟩)
  -- `unslowed` resets a counter on purpose: its entry ends here, and none is lowered
  | .givingBack [] (some name) => (st.remove name, none)
  | .givingBack [] none => (st, none)
  | .slowing .add name => (st.add name, some { a with phase := .slowing .incr name })
  | .slowing .incr name =>
    match st.cache.entries name with
    | none => (st, some { a with phase := .slowing .set name })
    | some _ => (st.incr name, none)
  | .slowing .set name => (st.set name, none)

end Attempt

/-! ## 3. Any number of attempts -/

structure World where
  store : Store
  attempts : List Attempt

def start : World := ⟨⟨.empty, [], []⟩, []⟩

inductive Action
  /-- An attempt that does not have to wait. -/
  | begin (signIn : SignIn)
  | advance (i : Nat) (right : Bool)
  | expire (key : Key)

def SignIn.begun (signIn : SignIn) : Attempt :=
  Attempt.goOn ⟨signIn, [], .evaluating⟩ [] (signIn.limits s)

def step (w : World) : Action → Option World
  | .begin signIn => some { w with attempts := signIn.begun s :: w.attempts }
  | .advance i right => (w.attempts[i]?).map fun a =>
      ⟨(a.advance w.store right).1, (a.advance w.store right).2.toList ++ w.attempts.eraseIdx i⟩
  | .expire key => some { w with store := w.store.remove key }

/-! ## 4. What is promised, and when -/

/-- The wrong guess was counted in the entry of that life, or evaluated while it stood. -/
def Wrong.within (key : Key) (life : Nat) (x : Wrong) : Bool :=
  x.key = key && (x.counted = life || x.standing = some life)

/-- **Within the life of an entry at most the limit of wrong guesses is evaluated.** -/
def Bounded (w : World) : Prop :=
  ∀ key, ∀ limit ∈ key.limit s, ∀ life, (w.store.wrong.filter (Wrong.within key life)).length ≤ limit

/-- **No entry is lowered by an attempt that it did not count.** -/
def Own (w : World) : Prop := ∀ x ∈ w.store.lowered, x.counted = some x.entry

namespace Attempt

/-- The counter for which the attempt makes an entry next. -/
def makes (a : Attempt) (st : Store) : Option Key :=
  match a.phase with
  | .counting .add name _ => if st.cache.entries name.1 = none then some name.1 else none
  | .counting .set name _ => some name.1
  | .slowing .add name => if st.cache.entries name = none then some name else none
  | .slowing .set name => some name
  | _ => none

/-- `incr` found nothing, and `set` is next. -/
def setting (a : Attempt) : Option Key :=
  match a.phase with
  | .counting .set name _ => some name.1
  | .slowing .set name => some name
  | _ => none

/-- The attempt has been counted there and is still to be evaluated or given back, or is about to set
    the counter. -/
def Concerned (a : Attempt) (key : Key) : Prop := (∃ c ∈ a.counts, c.key = key) ∨ a.setting = some key

end Attempt

/-- **An entry is made only while no other attempt is concerned with its counter.** -/
def Alone (w : World) : Action → Prop
  | .advance i _ => ∀ a ∈ w.attempts[i]?, ∀ key ∈ a.makes w.store,
      ∀ b ∈ w.attempts.eraseIdx i, ¬ b.Concerned key
  | _ => True

instance (a : Attempt) (key : Key) : Decidable (a.Concerned key) :=
  inferInstanceAs (Decidable ((∃ c ∈ a.counts, c.key = key) ∨ a.setting = some key))

instance (w : World) : (action : Action) → Decidable (Alone w action)
  | .advance i _ => inferInstanceAs (Decidable (∀ a ∈ w.attempts[i]?, ∀ key ∈ a.makes w.store,
      ∀ b ∈ w.attempts.eraseIdx i, ¬ b.Concerned key))
  | .begin _ => inferInstanceAs (Decidable True)
  | .expire _ => inferInstanceAs (Decidable True)

/-! ## 5. What holds in every run that meets the condition -/

def Count.name (c : Count) : Key × Nat := (c.key, c.limit)

def Count.isIn (key : Key) (life : Nat) (c : Count) : Bool := c.key = key && c.life = life

/-- How often the entry counted an attempt that has not given it back. -/
def held (attempts : List Attempt) (key : Key) (life : Nat) : Nat :=
  (attempts.flatMap Attempt.counts).countP (Count.isIn key life)

/-- How many of these may be evaluated, as far as this counter goes. -/
def allowed (attempts : List Attempt) (key : Key) (life : Nat) : Nat :=
  (attempts.flatMap Attempt.counts).countP fun c => c.isIn key life && c.value ≤ c.limit

def Store.wrongIn (st : Store) (key : Key) (life : Nat) : Nat :=
  st.wrong.countP fun x => x.key = key && x.counted = life

/-- The counts of an attempt are those of the names in front of where it is. -/
def Attempt.Fits (a : Attempt) : Prop :=
  match a.phase with
  | .counting _ name rest => a.counts.map Count.name ++ name :: rest = a.signIn.limits s
  | .evaluating => a.counts.map Count.name = a.signIn.limits s ∧ within a.counts = true
  | .clearing => a.counts.map Count.name = a.signIn.limits s
  | .givingBack names _ => a.counts.map Count.key = names
  | .slowing _ name => a.counts = [] ∧ name.limit s = none

structure Attempt.Shape (a : Attempt) : Prop where
  fits : a.Fits s
  distinct : (a.counts.map Count.key).Nodup
  limited : ∀ c ∈ a.counts, c.key.limit s = some c.limit

/-- An entry's value is the number of wrong guesses and of attempts under way that it counted; no
    attempt was counted in another entry than the one that stands. -/
structure Inv (st : Store) (attempts : List Attempt) : Prop where
  wf : st.cache.Wf
  lives : ∀ a ∈ attempts, ∀ c ∈ a.counts, c.life < st.cache.lives
  wrongLives : ∀ x ∈ st.wrong, x.counted < st.cache.lives
  shape : ∀ a ∈ attempts, a.Shape s
  here : ∀ a ∈ attempts, ∀ c ∈ a.counts, ∀ e ∈ st.cache.entries c.key, e.life = c.life
  unset : ∀ a ∈ attempts, ∀ key ∈ a.setting, st.cache.entries key = none
  value : ∀ key limit, key.limit s = some limit → ∀ e ∈ st.cache.entries key,
    e.value = st.wrongIn key e.life + held attempts key e.life
  limits : ∀ key limit, key.limit s = some limit → ∀ life,
    st.wrongIn key life + allowed attempts key life ≤ limit
  standing : ∀ x ∈ st.wrong, ∀ life ∈ x.standing, life = x.counted
  own : ∀ x ∈ st.lowered, x.counted = some x.entry

variable {s} {st : Store} {attempts rest : List Attempt} {a b : Attempt} {key : Key} {life limit : Nat}
  {e : Entry Int}

theorem held_cons : held (a :: rest) key life =
    a.counts.countP (Count.isIn key life) + held rest key life := by
  rw [held, List.flatMap_cons, List.countP_append, held]

theorem allowed_cons : allowed (a :: rest) key life =
    a.counts.countP (fun c => c.isIn key life && c.value ≤ c.limit) + allowed rest key life := by
  rw [allowed, List.flatMap_cons, List.countP_append, allowed]

theorem allowed_le_held : allowed attempts key life ≤ held attempts key life :=
  List.countP_mono_left fun _ _ h => (Bool.and_eq_true_iff.mp h).1

theorem held_eq_zero (h : ∀ a ∈ attempts, ∀ c ∈ a.counts, c.life < life) :
    held attempts key life = 0 := by
  refine List.countP_eq_zero.mpr fun c hc hin => ?_
  obtain ⟨a, ha, hc⟩ := List.mem_flatMap.mp hc
  have heq : c.life = life := of_decide_eq_true (Bool.and_eq_true_iff.mp hin).2
  exact absurd (h a ha c hc) (heq ▸ Nat.lt_irrefl _)

theorem wrongIn_eq_zero (h : ∀ x ∈ st.wrong, x.counted < life) : st.wrongIn key life = 0 := by
  refine List.countP_eq_zero.mpr fun x hx hin => ?_
  have heq : x.counted = life := of_decide_eq_true (Bool.and_eq_true_iff.mp hin).2
  exact absurd (h x hx) (heq ▸ Nat.lt_irrefl _)

theorem Inv.perm (h : Inv s st attempts) (hp : attempts.Perm rest) : Inv s st rest := by
  have hheld : ∀ key life, held rest key life = held attempts key life :=
    fun key life => ((hp.flatMap_right Attempt.counts).countP_eq _).symm
  have hallowed : ∀ key life, allowed rest key life = allowed attempts key life :=
    fun key life => ((hp.flatMap_right Attempt.counts).countP_eq _).symm
  exact ⟨h.wf, fun a ha => h.lives a (hp.mem_iff.mpr ha), h.wrongLives,
    fun a ha => h.shape a (hp.mem_iff.mpr ha), fun a ha => h.here a (hp.mem_iff.mpr ha),
    fun a ha => h.unset a (hp.mem_iff.mpr ha),
    fun key limit hl e he => hheld key e.life ▸ h.value key limit hl e he,
    fun key limit hl life => hallowed key life ▸ h.limits key limit hl life, h.standing, h.own⟩

/-- The attempt goes on, with the same counts. -/
theorem Inv.phase (h : Inv s st (a :: rest)) (hcounts : b.counts = a.counts) (hshape : b.Shape s)
    (hset : ∀ key ∈ b.setting, st.cache.entries key = none) : Inv s st (b :: rest) := by
  refine ⟨h.wf, ?_, h.wrongLives, ?_, ?_, ?_, ?_, ?_, h.standing, h.own⟩
  · exact List.forall_mem_cons.mpr ⟨hcounts ▸ h.lives a List.mem_cons_self,
      fun c hc => h.lives c (List.mem_cons_of_mem a hc)⟩
  · exact List.forall_mem_cons.mpr ⟨hshape, fun c hc => h.shape c (List.mem_cons_of_mem a hc)⟩
  · exact List.forall_mem_cons.mpr ⟨hcounts ▸ h.here a List.mem_cons_self,
      fun c hc => h.here c (List.mem_cons_of_mem a hc)⟩
  · exact List.forall_mem_cons.mpr ⟨hset, fun c hc => h.unset c (List.mem_cons_of_mem a hc)⟩
  · intro key limit hl e he
    rw [held_cons, hcounts, ← held_cons]
    exact h.value key limit hl e he
  · intro key limit hl life
    rw [allowed_cons, hcounts, ← allowed_cons]
    exact h.limits key limit hl life

theorem Inv.tail (h : Inv s st (a :: rest)) (hcounts : a.counts = []) : Inv s st rest := by
  refine ⟨h.wf, fun c hc => h.lives c (List.mem_cons_of_mem a hc), h.wrongLives,
    fun c hc => h.shape c (List.mem_cons_of_mem a hc), fun c hc => h.here c (List.mem_cons_of_mem a hc),
    fun c hc => h.unset c (List.mem_cons_of_mem a hc), fun key limit hl e he => ?_,
    fun key limit hl life => ?_, h.standing, h.own⟩
  · have hvalue := h.value key limit hl e he
    rwa [held_cons, hcounts, List.countP_nil, Nat.zero_add] at hvalue
  · have hlimits := h.limits key limit hl life
    rwa [allowed_cons, hcounts, List.countP_nil, Nat.zero_add] at hlimits

theorem Inv.begin (h : Inv s st attempts) (hcounts : b.counts = []) (hshape : b.Shape s)
    (hset : b.setting = none) : Inv s st (b :: attempts) := by
  refine ⟨h.wf, ?_, h.wrongLives, ?_, ?_, ?_, fun key limit hl e he => ?_,
    fun key limit hl life => ?_, h.standing, h.own⟩
  · exact List.forall_mem_cons.mpr ⟨hcounts ▸ nofun, h.lives⟩
  · exact List.forall_mem_cons.mpr ⟨hshape, h.shape⟩
  · exact List.forall_mem_cons.mpr ⟨hcounts ▸ nofun, h.here⟩
  · exact List.forall_mem_cons.mpr ⟨hset ▸ nofun, h.unset⟩
  · rw [held_cons, hcounts, List.countP_nil, Nat.zero_add]
    exact h.value key limit hl e he
  · rw [allowed_cons, hcounts, List.countP_nil, Nat.zero_add]
    exact h.limits key limit hl life

theorem Inv.remove (h : Inv s st attempts) (key : Key) : Inv s (st.remove key) attempts := by
  refine ⟨h.wf.remove, h.lives, h.wrongLives, h.shape, fun a ha c hc e he => ?_,
    fun a ha k hk => ?_, fun k limit hl e he => ?_, h.limits, h.standing, h.own⟩
  · exact h.here a ha c hc e (Cache.entries_of_remove he)
  · rw [← Option.not_isSome_iff_eq_none]
    intro hsome
    obtain ⟨e, he⟩ := Option.isSome_iff_exists.mp hsome
    exact absurd ((h.unset a ha k hk).symm.trans (Cache.entries_of_remove he)) nofun
  · exact h.value k limit hl e (Cache.entries_of_remove he)

/-- What is logged as lowered was counted there. -/
theorem Inv.log (h : Inv s st attempts) {new : List Lowered}
    (hnew : ∀ x ∈ new, x.counted = some x.entry) :
    Inv s { st with lowered := st.lowered ++ new } attempts :=
  ⟨h.wf, h.lives, h.wrongLives, h.shape, h.here, h.unset, h.value, h.limits, h.standing,
    fun x hx => (List.mem_append.mp hx).elim (h.own x) (hnew x)⟩

/-- Whatever an attempt was counted in, if it still stands, is what it lowers. -/
theorem Inv.lowers (h : Inv s st (a :: rest)) (key : Key)
    (hcounted : key ∈ a.counts.map Count.key) :
    ∀ x ∈ st.lowers key (a.countedIn key), x.counted = some x.entry := by
  intro x hx
  obtain ⟨e, he, rfl⟩ := Option.map_eq_some_iff.mp (Option.mem_toList.mp hx)
  have hfound : (a.counts.find? fun c => c.key = key).isSome := by
    obtain ⟨c, hc, hkey⟩ := List.mem_map.mp hcounted
    exact List.find?_isSome.mpr ⟨c, hc, decide_eq_true hkey⟩
  obtain ⟨c, hc⟩ := Option.isSome_iff_exists.mp hfound
  have hkey : c.key = key := by simpa using List.find?_some hc
  have hlife := h.here a List.mem_cons_self c (List.mem_of_find?_eq_some hc) e (hkey ▸ he)
  show a.countedIn key = some e.life
  rw [Attempt.countedIn, hc, hlife]
  rfl

/-- Counts whose entry is gone are let go. -/
theorem Inv.drop (h : Inv s st (a :: rest)) (hnone : st.cache.entries key = none)
    (hcounts : b.counts = a.counts.filter fun c => c.key ≠ key) (hshape : b.Shape s)
    (hset : b.setting = none) : Inv s st (b :: rest) := by
  have hsub : ∀ c ∈ b.counts, c ∈ a.counts := fun c hc => (List.mem_filter.mp (hcounts ▸ hc)).1
  refine ⟨h.wf, ?_, h.wrongLives, ?_, ?_, ?_, ?_, ?_, h.standing, h.own⟩
  · exact List.forall_mem_cons.mpr ⟨fun c hc => h.lives a List.mem_cons_self c (hsub c hc),
      fun c hc => h.lives c (List.mem_cons_of_mem a hc)⟩
  · exact List.forall_mem_cons.mpr ⟨hshape, fun c hc => h.shape c (List.mem_cons_of_mem a hc)⟩
  · exact List.forall_mem_cons.mpr ⟨fun c hc => h.here a List.mem_cons_self c (hsub c hc),
      fun c hc => h.here c (List.mem_cons_of_mem a hc)⟩
  · refine List.forall_mem_cons.mpr ⟨?_, fun c hc => h.unset c (List.mem_cons_of_mem a hc)⟩
    rw [hset]
    exact nofun
  · intro k limit hl e he
    have hne : k ≠ key := fun heq => by rw [heq, hnone] at he; cases he
    have hsame : b.counts.countP (Count.isIn k e.life) = a.counts.countP (Count.isIn k e.life) := by
      rw [hcounts, List.countP_filter]
      refine List.countP_congr fun c _ => ?_
      simp only [Count.isIn, Bool.and_eq_true, decide_eq_true_iff]
      exact ⟨fun hc => hc.1, fun hc => ⟨hc, fun heq => hne (hc.1.symm.trans heq)⟩⟩
    rw [held_cons, hsame, ← held_cons]
    exact h.value k limit hl e he
  · intro k limit hl life
    have hle := List.Sublist.countP_le
      (p := fun c : Count => c.isIn k life && c.value ≤ c.limit)
      (List.filter_sublist (p := fun c : Count => c.key ≠ key) (l := a.counts))
    have hlimits := h.limits k limit hl life
    rw [allowed_cons] at hlimits ⊢
    rw [hcounts]
    omega

/-- An entry is made where there was none, and nobody has anything to do with it. -/
theorem Inv.made (h : Inv s st attempts) (hnone : st.cache.entries key = none)
    (hcounts : ∀ a ∈ attempts, ∀ c ∈ a.counts, c.key ≠ key)
    (hset : ∀ a ∈ attempts, a.setting ≠ some key) :
    Inv s { st with cache := st.cache.set key 0 } attempts := by
  refine ⟨h.wf.set, fun a ha c hc => Nat.lt_succ_of_lt (h.lives a ha c hc),
    fun x hx => Nat.lt_succ_of_lt (h.wrongLives x hx), h.shape, fun a ha c hc e he => ?_,
    fun a ha k hk => ?_, fun k limit hl e he => ?_, h.limits, h.standing, h.own⟩
  · rw [Cache.set_of_ne (hcounts a ha c hc)] at he
    exact h.here a ha c hc e he
  · have hne : k ≠ key := fun heq => hset a ha (heq ▸ hk)
    exact (Cache.set_of_ne hne).trans (h.unset a ha k hk)
  · by_cases heq : k = key
    · obtain rfl := heq
      obtain rfl : _ = e := Option.some.inj ((Cache.set_self).symm.trans he)
      have hwrong : st.wrongIn k st.cache.lives = 0 := wrongIn_eq_zero h.wrongLives
      have hheld : held attempts k st.cache.lives = 0 := held_eq_zero h.lives
      show (0 : Int) = (st.wrongIn k st.cache.lives : Nat) + (held attempts k st.cache.lives : Nat)
      rw [hwrong, hheld]
      rfl
    · rw [Cache.set_of_ne heq] at he
      exact h.value k limit hl e he

/-- The attempt is counted in the entry that stands. -/
theorem Inv.count (h : Inv s st (a :: rest)) (he : st.cache.entries key = some e)
    (hlimit : key.limit s = some limit)
    (hcounts : b.counts = a.counts ++ [⟨key, limit, e.life, e.value + 1⟩]) (hshape : b.Shape s)
    (hset : b.setting = none) : Inv s (st.incr key) (b :: rest) := by
  obtain ⟨new, hnew⟩ : ∃ new : Count, new = ⟨key, limit, e.life, e.value + 1⟩ := ⟨_, rfl⟩
  rw [← hnew] at hcounts
  have hkey : new.key = key := by rw [hnew]
  have hlife : new.life = e.life := by rw [hnew]
  have hentry : ∀ k e', (st.incr key).cache.entries k = some e' →
      k = key ∧ e' = ⟨e.life, e.value + 1⟩ ∨ k ≠ key ∧ st.cache.entries k = some e' := by
    intro k e' he'
    by_cases heq : k = key
    · have hself := (Cache.modify_self (c := st.cache) (k := key) (f := (· + 1))).symm.trans
        (heq ▸ he')
      rw [he] at hself
      exact .inl ⟨heq, (Option.some.inj hself).symm⟩
    · exact .inr ⟨heq, (Cache.modify_of_ne (f := (· + 1)) heq).symm.trans he'⟩
  have hlives : ∀ c ∈ b.counts, c.life < st.cache.lives := by
    intro c hc
    rcases List.mem_append.mp (hcounts ▸ hc) with hc | hc
    · exact h.lives a List.mem_cons_self c hc
    · rw [List.mem_singleton.mp hc, hlife]
      exact h.wf key e he
  have hhere : ∀ c : Count, (∀ e' ∈ st.cache.entries c.key, e'.life = c.life) →
      ∀ e' ∈ (st.incr key).cache.entries c.key, e'.life = c.life := by
    intro c hc e' he'
    rcases hentry c.key e' he' with ⟨heq, rfl⟩ | ⟨-, he'⟩
    · exact hc e (heq ▸ he)
    · exact hc e' he'
  refine ⟨h.wf.modify (f := (· + 1)), ?_, h.wrongLives, ?_, ?_, ?_, ?_, ?_, h.standing, h.own⟩
  · exact List.forall_mem_cons.mpr ⟨hlives, fun c hc => h.lives c (List.mem_cons_of_mem a hc)⟩
  · exact List.forall_mem_cons.mpr ⟨hshape, fun c hc => h.shape c (List.mem_cons_of_mem a hc)⟩
  · refine List.forall_mem_cons.mpr ⟨fun c hc => hhere c ?_, fun a' ha' c hc => hhere c ?_⟩
    · rcases List.mem_append.mp (hcounts ▸ hc) with hc | hc
      · exact h.here a List.mem_cons_self c hc
      · intro e' he'
        rw [List.mem_singleton.mp hc, hkey] at he'
        rw [List.mem_singleton.mp hc, hlife, Option.some.inj (he'.symm.trans he)]
    · exact h.here a' (List.mem_cons_of_mem a ha') c hc
  · refine List.forall_mem_cons.mpr ⟨fun k hk => ?_, fun a' ha' k hk => ?_⟩
    · rw [hset] at hk
      cases hk
    · have hnone := h.unset a' (List.mem_cons_of_mem a ha') k hk
      exact (Cache.modify_eq_none (f := (· + 1))).mpr hnone
  · intro k limit' hl e' he'
    rcases hentry k e' he' with ⟨rfl, rfl⟩ | ⟨hne, he'⟩
    · have hvalue := h.value k limit' hl e he
      have hin : new.isIn k e.life = true := by simp [Count.isIn, hkey, hlife]
      rw [held_cons] at hvalue
      rw [held_cons, hcounts, List.countP_append, List.countP_singleton, if_pos hin]
      show e.value + 1 = _
      rw [hvalue]
      show _ = ((st.wrongIn k e.life : Nat) : Int) + _
      push_cast
      ring
    · have hnot : new.isIn k e'.life = false := by simp [Count.isIn, hkey, Ne.symm hne]
      have hvalue := h.value k limit' hl e' he'
      rw [held_cons] at hvalue
      rw [held_cons, hcounts, List.countP_append, List.countP_singleton, hnot]
      exact hvalue
  · intro k limit' hl life
    have hlimits := h.limits k limit' hl life
    rw [allowed_cons] at hlimits
    rw [allowed_cons, hcounts, List.countP_append, List.countP_singleton]
    show st.wrongIn k life + _ ≤ limit'
    split
    · -- the entry's value is no less than what it may let through
      rename_i hin
      obtain ⟨hin, hle⟩ := Bool.and_eq_true_iff.mp hin
      obtain ⟨hk, hl'⟩ := Bool.and_eq_true_iff.mp hin
      obtain rfl : key = k := hkey ▸ of_decide_eq_true hk
      obtain rfl : e.life = life := hlife ▸ of_decide_eq_true hl'
      obtain rfl : limit = limit' := Option.some.inj (hlimit.symm.trans hl)
      have hle : e.value + 1 ≤ limit := by simpa [hnew] using hle
      have hvalue := h.value key limit hl e he
      have hbound : allowed (a :: rest) key e.life ≤ held (a :: rest) key e.life := allowed_le_held
      rw [allowed_cons] at hbound
      omega
    · omega

/-- An entry's value changes where no count depends on it. -/
theorem Inv.change (h : Inv s st attempts) (hlimit : key.limit s = none) {f : Int → Int} :
    Inv s { st with cache := st.cache.modify key f } attempts := by
  have hentry : ∀ k, ∀ e ∈ (st.cache.modify key f).entries k, ∃ e' ∈ st.cache.entries k,
      e.life = e'.life ∧ (k ≠ key → e = e') := by
    intro k e he
    by_cases heq : k = key
    · rw [heq, Cache.modify_self] at he
      obtain ⟨e', he', rfl⟩ := Option.map_eq_some_iff.mp he
      exact ⟨e', heq ▸ he', rfl, fun hne => absurd heq hne⟩
    · exact ⟨e, (Cache.modify_of_ne heq).symm.trans he, rfl, fun _ => rfl⟩
  refine ⟨h.wf.modify, h.lives, h.wrongLives, h.shape, fun a ha c hc e he => ?_,
    fun a ha k hk => Cache.modify_eq_none.mpr (h.unset a ha k hk), fun k limit hl e he => ?_,
    h.limits, h.standing, h.own⟩
  · obtain ⟨e', he', hlife, -⟩ := hentry c.key e he
    exact hlife.trans (h.here a ha c hc e' he')
  · have hne : k ≠ key := fun heq => by rw [heq, hlimit] at hl; cases hl
    obtain ⟨e', he', -, hsame⟩ := hentry k e he
    rw [hsame hne]
    exact h.value k limit hl e' he'

/-- A count is given back to the entry that stands. -/
theorem Inv.giveBack {c : Count} {cs : List Count} (h : Inv s st (a :: rest))
    (hcounts : a.counts = c :: cs) (hkey : c.key = key) (he : st.cache.entries key = some e)
    (hb : b.counts = cs) (hshape : b.Shape s) (hset : b.setting = none) :
    Inv s { st with cache := st.cache.modify key (· - 1) } (b :: rest) := by
  have hlife : e.life = c.life :=
    h.here a List.mem_cons_self c (hcounts ▸ List.mem_cons_self) e (hkey ▸ he)
  have hsub : ∀ d ∈ b.counts, d ∈ a.counts := fun d hd =>
    hcounts ▸ List.mem_cons_of_mem c (hb ▸ hd)
  have hentry : ∀ k e', (st.cache.modify key (· - 1)).entries k = some e' →
      k = key ∧ e' = ⟨e.life, e.value - 1⟩ ∨ k ≠ key ∧ st.cache.entries k = some e' := by
    intro k e' he'
    by_cases heq : k = key
    · rw [heq, Cache.modify_self, he] at he'
      exact .inl ⟨heq, (Option.some.inj he').symm⟩
    · exact .inr ⟨heq, (Cache.modify_of_ne heq).symm.trans he'⟩
  have hhere : ∀ d : Count, (∀ e' ∈ st.cache.entries d.key, e'.life = d.life) →
      ∀ e' ∈ (st.cache.modify key (· - 1)).entries d.key, e'.life = d.life := by
    intro d hd e' he'
    rcases hentry d.key e' he' with ⟨heq, rfl⟩ | ⟨-, he'⟩
    · exact hd e (heq ▸ he)
    · exact hd e' he'
  refine ⟨h.wf.modify (f := (· - 1)), ?_, h.wrongLives, ?_, ?_, ?_, ?_, ?_, h.standing, h.own⟩
  · exact List.forall_mem_cons.mpr ⟨fun d hd => h.lives a List.mem_cons_self d (hsub d hd),
      fun d hd => h.lives d (List.mem_cons_of_mem a hd)⟩
  · exact List.forall_mem_cons.mpr ⟨hshape, fun d hd => h.shape d (List.mem_cons_of_mem a hd)⟩
  · exact List.forall_mem_cons.mpr
      ⟨fun d hd => hhere d (h.here a List.mem_cons_self d (hsub d hd)),
        fun a' ha' d hd => hhere d (h.here a' (List.mem_cons_of_mem a ha') d hd)⟩
  · refine List.forall_mem_cons.mpr ⟨?_, fun a' ha' k hk => ?_⟩
    · rw [hset]
      exact nofun
    · have hnone := h.unset a' (List.mem_cons_of_mem a ha') k hk
      exact (Cache.modify_eq_none (f := (· - 1))).mpr hnone
  · intro k limit hl e' he'
    rcases hentry k e' he' with ⟨rfl, rfl⟩ | ⟨hne, he'⟩
    · have hvalue := h.value k limit hl e he
      have hin : c.isIn k e.life = true := by simp [Count.isIn, hkey, hlife]
      rw [held_cons, hcounts, List.countP_cons, if_pos hin] at hvalue
      rw [held_cons, hb]
      show e.value - 1 = ((st.wrongIn k e.life : Nat) : Int) + _
      rw [hvalue]
      push_cast
      ring
    · have hvalue := h.value k limit hl e' he'
      have hnot : ¬ c.isIn k e'.life = true := by simp [Count.isIn, hkey, Ne.symm hne]
      rw [held_cons, hcounts, List.countP_cons, if_neg hnot] at hvalue
      rw [held_cons, hb]
      exact hvalue
  · intro k limit hl life
    have hlimits := h.limits k limit hl life
    rw [allowed_cons, hcounts, List.countP_cons] at hlimits
    rw [allowed_cons, hb]
    show st.wrongIn k life + _ ≤ limit
    omega

/-- A guess was wrong: what the attempt holds is held for good. -/
theorem Inv.evaluate (h : Inv s st (a :: rest)) (hwithin : within a.counts = true)
    (hb : b.counts = []) (hshape : b.Shape s) (hset : b.setting = none) :
    Inv s { st with wrong := st.wrong ++ a.wrongs st } (b :: rest) := by
  have hwrong : ∀ key life, Store.wrongIn { st with wrong := st.wrong ++ a.wrongs st } key life =
      st.wrongIn key life + a.counts.countP (Count.isIn key life) := by
    intro key life
    rw [Store.wrongIn, List.countP_append, Attempt.wrongs, List.countP_map]
    rfl
  have hlow : ∀ key life, a.counts.countP (fun c => c.isIn key life && c.value ≤ c.limit) =
      a.counts.countP (Count.isIn key life) := by
    intro key life
    refine List.countP_congr fun c hc => ?_
    have hvalue := List.all_eq_true.mp hwithin c hc
    rw [hvalue, Bool.and_true]
  have hmem : ∀ x ∈ a.wrongs st, ∃ c ∈ a.counts, x.counted = c.life ∧
      ∀ life ∈ x.standing, life = c.life := by
    intro x hx
    obtain ⟨c, hc, rfl⟩ := List.mem_map.mp hx
    refine ⟨c, hc, rfl, fun life hlife => ?_⟩
    obtain ⟨e, he, rfl⟩ := Option.map_eq_some_iff.mp hlife
    exact h.here a List.mem_cons_self c hc e he
  refine ⟨h.wf, ?_, fun x hx => ?_, ?_, ?_, ?_, fun key limit hl e he => ?_,
    fun key limit hl life => ?_, fun x hx => ?_, h.own⟩
  · exact List.forall_mem_cons.mpr ⟨hb ▸ nofun, fun d hd => h.lives d (List.mem_cons_of_mem a hd)⟩
  · rcases List.mem_append.mp hx with hx | hx
    · exact h.wrongLives x hx
    · obtain ⟨c, hc, hcounted, -⟩ := hmem x hx
      exact hcounted ▸ h.lives a List.mem_cons_self c hc
  · exact List.forall_mem_cons.mpr ⟨hshape, fun d hd => h.shape d (List.mem_cons_of_mem a hd)⟩
  · exact List.forall_mem_cons.mpr ⟨hb ▸ nofun, fun d hd => h.here d (List.mem_cons_of_mem a hd)⟩
  · exact List.forall_mem_cons.mpr ⟨hset ▸ nofun, fun d hd => h.unset d (List.mem_cons_of_mem a hd)⟩
  · have hvalue := h.value key limit hl e he
    rw [held_cons] at hvalue
    rw [held_cons, hwrong, hb, List.countP_nil]
    push_cast at hvalue ⊢
    linarith
  · have hlimits := h.limits key limit hl life
    rw [allowed_cons, hlow] at hlimits
    rw [allowed_cons, hwrong, hb, List.countP_nil]
    omega
  · rcases List.mem_append.mp hx with hx | hx
    · exact h.standing x hx
    · obtain ⟨c, -, hcounted, hstanding⟩ := hmem x hx
      exact hcounted ▸ hstanding

/-! ## 6. Every step keeps it -/

theorem SignIn.limits_fst (signIn : SignIn) :
    (signIn.limits s).map Prod.fst = [signIn.clears, signIn.returns] := by
  cases signIn <;> rfl

theorem SignIn.limits_distinct (signIn : SignIn) : ((signIn.limits s).map Prod.fst).Nodup := by
  cases signIn <;> simp [SignIn.limits]

theorem SignIn.limits_limit (signIn : SignIn) : ∀ p ∈ signIn.limits s, p.1.limit s = some p.2 := by
  cases signIn <;> simp [SignIn.limits, Key.limit]

theorem map_key (counts : List Count) :
    counts.map Count.key = (counts.map Count.name).map Prod.fst := by
  rw [List.map_map]
  rfl

theorem goOn_counts (a : Attempt) (counts : List Count) (names : List (Key × Nat)) :
    (a.goOn counts names).counts = counts := by
  cases names <;> rfl

theorem goOn_setting (a : Attempt) (counts : List Count) (names : List (Key × Nat)) :
    (a.goOn counts names).setting = none := by
  cases names with
  | nil =>
    unfold Attempt.goOn Attempt.setting
    cases within counts <;> rfl
  | cons name rest => rfl

variable {counts : List Count}

/-- Wherever the loop goes on, the counts are those of the names behind it. -/
theorem goOn_shape {names : List (Key × Nat)}
    (hsplit : counts.map Count.name ++ names = a.signIn.limits s) :
    (a.goOn counts names).Shape s := by
  refine ⟨?_, ?_, fun c hc => ?_⟩
  · cases names with
    | nil =>
      rw [List.append_nil] at hsplit
      unfold Attempt.goOn Attempt.Fits
      by_cases hwithin : within counts = true
      · rw [if_pos hwithin]
        exact ⟨hsplit, hwithin⟩
      · rw [if_neg hwithin]
    | cons name rest => exact hsplit
  · rw [goOn_counts, map_key]
    have hnodup := a.signIn.limits_distinct (s := s)
    rw [← hsplit, List.map_append] at hnodup
    exact (List.nodup_append.mp hnodup).1
  · rw [goOn_counts] at hc
    refine a.signIn.limits_limit c.name ?_
    rw [← hsplit]
    exact List.mem_append_left _ (List.mem_map_of_mem hc)

/-- The name that is being counted is not among the counts yet. -/
theorem counting_fresh {name : Key × Nat} {names : List (Key × Nat)}
    (hsplit : a.counts.map Count.name ++ name :: names = a.signIn.limits s) :
    (∀ c ∈ a.counts, c.key ≠ name.1) ∧ name.1.limit s = some name.2 := by
  have hnodup := a.signIn.limits_distinct (s := s)
  rw [← hsplit, List.map_append, List.map_cons, ← map_key] at hnodup
  refine ⟨fun c hc heq => ?_, a.signIn.limits_limit name (hsplit ▸ by simp)⟩
  exact (List.nodup_append.mp hnodup).2.2 c.key (List.mem_map_of_mem hc) name.1
    List.mem_cons_self heq

/-- The first count, and that it is the only one of its counter. -/
theorem counts_split {names : List Key}
    (hkeys : counts.map Count.key = key :: names) (hnodup : (counts.map Count.key).Nodup) :
    ∃ c cs, counts = c :: cs ∧ c.key = key ∧ (counts.filter fun c => c.key ≠ key) = cs ∧
      cs.map Count.key = names := by
  cases counts with
  | nil => cases hkeys
  | cons c cs =>
    cases hkeys
    refine ⟨c, cs, rfl, rfl, ?_, rfl⟩
    have hself : ¬ decide (c.key ≠ c.key) = true := by simp
    rw [List.filter_cons, if_neg hself]
    refine List.filter_eq_self.mpr fun d hd => decide_eq_true fun heq => ?_
    exact (List.nodup_cons.mp hnodup).1 (heq ▸ List.mem_map_of_mem hd)

theorem shape_givingBack {signIn : SignIn} {names : List Key}
    {unslow : Option Key} (hkeys : counts.map Count.key = key :: names)
    (hnodup : (counts.map Count.key).Nodup) (hlimited : ∀ c ∈ counts, c.key.limit s = some c.limit) :
    Attempt.Shape s ⟨signIn, counts.filter fun c => c.key ≠ key, .givingBack names unslow⟩ := by
  obtain ⟨c, cs, hcounts, -, hfilter, hcs⟩ := counts_split hkeys hnodup
  have hfits : (counts.filter fun c => c.key ≠ key).map Count.key = names := by rw [hfilter, hcs]
  refine ⟨hfits, ?_, fun d hd => hlimited d (List.mem_filter.mp hd).1⟩
  exact hnodup.sublist (List.filter_sublist.map Count.key)

/-- An entry is made by an attempt that is alone with the counter. -/
theorem Inv.madeAlone (h : Inv s st (a :: rest)) (hnone : st.cache.entries key = none)
    (hset : a.setting = none) (hown : ∀ c ∈ a.counts, c.key ≠ key)
    (halone : ∀ b ∈ rest, ¬ b.Concerned key) :
    Inv s { st with cache := st.cache.set key 0 } (a :: rest) := by
  refine h.made hnone ?_ ?_
  · exact List.forall_mem_cons.mpr ⟨hown, fun b hb c hc heq => halone b hb (.inl ⟨c, hc, heq⟩)⟩
  · exact List.forall_mem_cons.mpr ⟨hset ▸ nofun, fun b hb heq => halone b hb (.inr heq)⟩

theorem Inv.add (h : Inv s st (a :: rest)) (hset : a.setting = none)
    (hown : ∀ c ∈ a.counts, c.key ≠ key)
    (halone : st.cache.entries key = none → ∀ b ∈ rest, ¬ b.Concerned key) :
    Inv s (st.add key) (a :: rest) := by
  unfold Store.add Cache.add
  split
  · rename_i hnone
    exact h.madeAlone hnone hset hown (halone hnone)
  · exact h

theorem Store.set_eq (h : st.cache.entries key = none) :
    st.set key = Store.incr { st with cache := st.cache.set key 0 } key := by
  unfold Store.set Store.incr Store.lowers
  rw [h, Cache.modify_set]
  simp

theorem Store.decr_eq (h : st.cache.entries key = none) (counted : Option Nat) :
    st.decr key counted = st := by
  unfold Store.decr Store.lowers
  rw [h, Cache.modify_eq_self h]
  simp

/-- **The next call of an attempt keeps the invariant**, if it makes an entry only alone. -/
theorem Inv.advance (h : Inv s st (a :: rest)) (right : Bool)
    (halone : ∀ key ∈ a.makes st, ∀ b ∈ rest, ¬ b.Concerned key) :
    Inv s (a.advance st right).1 ((a.advance st right).2.toList ++ rest) := by
  obtain ⟨hfits, hdistinct, hlimited⟩ := h.shape a List.mem_cons_self
  have hunset := h.unset a List.mem_cons_self
  obtain ⟨signIn, counts, phase⟩ := a
  match phase with
  | .counting .add name names =>
    have hgo := h.phase (b := ⟨signIn, counts, .counting .incr name names⟩) rfl
      ⟨hfits, hdistinct, hlimited⟩ nofun
    refine hgo.add rfl (counting_fresh hfits).1 fun hnone => halone name.1 ?_
    exact if_pos hnone
  | .counting .incr name names =>
    obtain ⟨hfresh, hlimit⟩ := counting_fresh hfits
    simp only [Attempt.advance]
    cases he : st.cache.entries name.1 with
    | none =>
      refine h.phase rfl ⟨hfits, hdistinct, hlimited⟩ fun key hkey => ?_
      exact Option.some.inj hkey ▸ he
    | some e =>
      refine h.count he hlimit (goOn_counts _ _ _) (goOn_shape ?_) (goOn_setting _ _ _)
      rw [List.map_append, List.append_assoc]
      exact hfits
  | .counting .set name names =>
    obtain ⟨hfresh, hlimit⟩ := counting_fresh hfits
    have hnone := hunset name.1 rfl
    have hgo := h.phase (b := ⟨signIn, counts, .counting .incr name names⟩) rfl
      ⟨hfits, hdistinct, hlimited⟩ nofun
    have hmade := hgo.madeAlone hnone rfl hfresh (halone name.1 rfl)
    show Inv s (st.set name.1) _
    rw [Store.set_eq hnone]
    refine hmade.count Cache.set_self hlimit (goOn_counts _ _ _) (goOn_shape ?_)
      (goOn_setting _ _ _)
    rw [List.map_append, List.append_assoc]
    exact hfits
  | .evaluating =>
    cases right with
    | true => exact h.phase rfl ⟨hfits.1, hdistinct, hlimited⟩ nofun
    | false =>
      cases hslows : signIn.slows with
      | none =>
        have hend := h.evaluate (b := ⟨signIn, [], .givingBack [] none⟩) hfits.2 rfl
          ⟨rfl, List.nodup_nil, nofun⟩ rfl
        simp only [Attempt.advance, hslows]
        exact hend.tail rfl
      | some name =>
        have hlimit : name.limit s = none := by
          cases signIn with
          | password n address => exact Option.some.inj hslows ▸ rfl
          | code user n address => cases hslows
        simp only [Attempt.advance, hslows]
        exact h.evaluate hfits.2 rfl ⟨⟨rfl, hlimit⟩, List.nodup_nil, nofun⟩ rfl
  | .clearing =>
    have hkeys : counts.map Count.key = [signIn.clears, signIn.returns] := by
      rw [map_key, hfits, SignIn.limits_fst]
    have hlog := h.lowers signIn.clears (hkeys ▸ List.mem_cons_self)
    have hremoved : Inv s (st.remove signIn.clears) (⟨signIn, counts.filter fun c =>
        c.key ≠ signIn.clears, .givingBack [signIn.returns] signIn.unslows⟩ :: rest) :=
      (h.remove signIn.clears).drop Cache.remove_self rfl
        (shape_givingBack hkeys hdistinct hlimited) rfl
    exact hremoved.log hlog
  | .givingBack (key :: names) unslow =>
    obtain ⟨c, cs, hcounts, hc, hfilter, -⟩ := counts_split hfits hdistinct
    have hmem : c ∈ counts := by
      rw [show counts = c :: cs from hcounts]
      exact List.mem_cons_self
    have hlog := h.lowers key (List.mem_map.mpr ⟨c, hmem, hc⟩)
    have hshape : Attempt.Shape s ⟨signIn, counts.filter fun c => c.key ≠ key,
        .givingBack names unslow⟩ := shape_givingBack hfits hdistinct hlimited
    simp only [Attempt.advance]
    cases he : st.cache.entries key with
    | none =>
      rw [Store.decr_eq he]
      exact h.drop he rfl hshape rfl
    | some e => exact (h.giveBack hcounts hc he hfilter hshape rfl).log hlog
  | .givingBack [] unslow =>
    have hnil : counts = [] := List.map_eq_nil_iff.mp hfits
    have htail := h.tail hnil
    cases unslow with
    | none => exact htail
    | some name => exact htail.remove name
  | .slowing .add name =>
    obtain ⟨rfl, hlimit⟩ := hfits
    have hgo := h.phase (b := ⟨signIn, [], .slowing .incr name⟩) rfl
      ⟨⟨rfl, hlimit⟩, hdistinct, hlimited⟩ nofun
    exact hgo.add rfl nofun fun hnone => halone name (if_pos hnone)
  | .slowing .incr name =>
    obtain ⟨rfl, hlimit⟩ := hfits
    simp only [Attempt.advance]
    cases he : st.cache.entries name with
    | none =>
      refine h.phase rfl ⟨⟨rfl, hlimit⟩, hdistinct, hlimited⟩ fun key hkey => ?_
      exact Option.some.inj hkey ▸ he
    | some e => exact (h.change hlimit).tail rfl
  | .slowing .set name =>
    obtain ⟨rfl, hlimit⟩ := hfits
    have hnone := hunset name rfl
    have hgo := h.phase (b := ⟨signIn, [], .slowing .incr name⟩) rfl
      ⟨⟨rfl, hlimit⟩, hdistinct, hlimited⟩ nofun
    have hmade := hgo.madeAlone hnone rfl nofun (halone name rfl)
    show Inv s (st.set name) _
    rw [Store.set_eq hnone]
    exact (hmade.change hlimit).tail rfl

/-! ## 7. Every run -/

theorem perm_eraseIdx {attempts : List Attempt} {i : Nat} (h : attempts[i]? = some a) :
    attempts.Perm (a :: attempts.eraseIdx i) := by
  obtain ⟨hi, rfl⟩ := List.getElem?_eq_some_iff.mp h
  exact (List.getElem_cons_eraseIdx_perm hi).symm

theorem inv_start : Inv s start.store start.attempts := by
  have hattempts : ∀ a, a ∉ start.attempts := fun _ => List.not_mem_nil
  have hwrong : ∀ x, x ∉ start.store.wrong := fun _ => List.not_mem_nil
  have hlowered : ∀ x, x ∉ start.store.lowered := fun _ => List.not_mem_nil
  refine ⟨Cache.Wf.empty, ?_, ?_, ?_, ?_, ?_, ?_, ?_, ?_, ?_⟩
  · exact fun a ha => absurd ha (hattempts a)
  · exact fun x hx => absurd hx (hwrong x)
  · exact fun a ha => absurd ha (hattempts a)
  · exact fun a ha => absurd ha (hattempts a)
  · exact fun a ha => absurd ha (hattempts a)
  · exact fun _ _ _ _ he => absurd he (Option.not_mem_none _)
  · exact fun _ limit _ _ => Nat.zero_le limit
  · exact fun x hx => absurd hx (hwrong x)
  · exact fun x hx => absurd hx (hlowered x)

theorem Inv.step {w w' : World} {action : Action} (hstep : step s w action = some w')
    (halone : Alone w action) (h : Inv s w.store w.attempts) : Inv s w'.store w'.attempts := by
  cases action with
  | begin signIn =>
    cases hstep
    have hsplit : ([] : List Count).map Count.name ++ signIn.limits s = signIn.limits s := rfl
    exact h.begin (goOn_counts _ _ _) (goOn_shape hsplit) (goOn_setting _ _ _)
  | advance i right =>
    obtain ⟨a, ha, rfl⟩ := Option.map_eq_some_iff.mp hstep
    exact (h.perm (perm_eraseIdx ha)).advance right fun key hkey => halone a ha key hkey
  | expire key =>
    cases hstep
    exact h.remove key

/-- Whatever was wrong was evaluated in the life of the entry that counted it, or after it. -/
theorem Inv.within_eq (h : Inv s st attempts) {x : Wrong} (hx : x ∈ st.wrong) :
    x.within key life = (x.key = key && x.counted = life) := by
  unfold Wrong.within
  cases hstanding : x.standing with
  | none => simp
  | some standing =>
    obtain rfl := h.standing x hx standing hstanding
    simp

theorem Inv.bounded {w : World} (h : Inv s w.store w.attempts) : Bounded s w := by
  intro key limit hl life
  have hlimits := h.limits key limit hl life
  have hwithin : w.store.wrong.countP (Wrong.within key life) = w.store.wrongIn key life :=
    List.countP_congr fun x hx => by rw [h.within_eq hx]
  rw [← List.countP_eq_length_filter, hwithin]
  omega

/-- **Guesses are bounded**, and counters lowered only by those they counted, in every run in which an
    entry is made only while no other attempt is concerned with its counter. -/
theorem guesses_bounded (s : Settings) (actions : List Action) (w : World)
    (hrun : Runs.run (step s) start actions = some w)
    (halone : Runs.Along (step s) Alone start actions) : Bounded s w ∧ Own w := by
  have hstart : Inv s start.store start.attempts := inv_start
  have h := Runs.run_invariant_along (I := fun w => Inv s w.store w.attempts)
    (fun _ _ _ hstep halone h => h.step hstep halone) hrun halone hstart
  exact ⟨h.bounded, h.own⟩

/-! ## 8. An entry that expires between a count and its return -/

def settings : Settings := ⟨5, 20⟩

/-- All the calls of an attempt with a wrong password, alone: four to be counted, the evaluation, and
    two to slow the name down. -/
def wrongPassword : List Action :=
  .begin (.password "ada" "203.0.113.7") :: List.replicate 7 (.advance 0 false)

/-- Five wrong passwords; a sixth attempt is refused, but the counter's entry expires before it is given
    back, and a seventh makes another one. The sixth lowers that, and five more are let through. -/
def strayReturn : List Action :=
  (List.replicate 5 wrongPassword).flatten ++
    .begin (.password "ada" "203.0.113.7") :: List.replicate 4 (.advance 0 false) ++
    .expire (.pair "203.0.113.7:ada") :: wrongPassword ++ List.replicate 3 (.advance 0 false) ++
    (List.replicate 5 wrongPassword).flatten

/-- **Six wrong passwords within the life of one entry**, of a counter whose limit is five; and the
    entry was lowered by an attempt that another entry had counted. -/
theorem lowered_by_a_stranger : ∃ w, Runs.run (step settings) start strayReturn = some w ∧
    ¬ Bounded settings w ∧ ¬ Own w := by
  have hrun : (Runs.run (step settings) start strayReturn).map (fun w =>
      ((w.store.wrong.filter (Wrong.within (.pair "203.0.113.7:ada") 3)).length,
        w.store.lowered.map fun x => (x.key, x.counted, x.entry))) =
      some (6, [(.pair "203.0.113.7:ada", some 0, 3), (.address "203.0.113.7", some 1, 1)]) := by
    decide +kernel
  obtain ⟨w, hw, heq⟩ := Option.map_eq_some_iff.mp hrun
  obtain ⟨hwrong, hlowered⟩ := Prod.mk.inj heq
  refine ⟨w, hw, fun hbounded => ?_, fun hown => ?_⟩
  · have hle := hbounded (.pair "203.0.113.7:ada") 5 rfl 3
    omega
  · have hmem : (Key.pair "203.0.113.7:ada", some 0, 3) ∈
        w.store.lowered.map fun x => (x.key, x.counted, x.entry) := by
      rw [hlowered]
      exact List.mem_cons_self
    obtain ⟨x, hx, heq⟩ := List.mem_map.mp hmem
    obtain ⟨-, hcounted, hentry⟩ : x.key = .pair "203.0.113.7:ada" ∧ x.counted = some 0 ∧
        x.entry = 3 := by simpa using heq
    have hsame := hown x hx
    rw [hcounted, hentry] at hsame
    exact absurd hsame (by decide)

/-- Two wrong passwords at once, each call of one after the same call of the other. -/
def bothWrong : List Action :=
  .begin (.password "ada" "203.0.113.7") :: .begin (.password "ada" "203.0.113.7") ::
    List.replicate 13 (.advance 1 false) ++ [.advance 0 false]

theorem guesses_bounded_bothWrong : ∃ w, Runs.run (step settings) start bothWrong = some w ∧
    w.store.wrong.length = 4 ∧ Bounded settings w ∧ Own w := by
  have hrun : (Runs.run (step settings) start bothWrong).map (fun w => w.store.wrong.length) =
      some 4 := by decide +kernel
  obtain ⟨w, hw, hwrong⟩ := Option.map_eq_some_iff.mp hrun
  have halone : Runs.Along (step settings) Alone start bothWrong := by decide +kernel
  exact ⟨w, hw, hwrong, guesses_bounded settings bothWrong w hw halone⟩

end Dbs.Throttle
