/-
  File:      Dbs/LoadOrder.lean
  Subject:   THE ORDER IN WHICH MODELS ARE LOADED (introspect.py, topological_order): parents and the
             targets of foreign keys first, and cycles broken at the first model whose parents are done.

  What Django says about the models is a parameter; all that is asked of it is that inheritance is
  transitive and that no model inherits from itself.

  * `topologicalOrder` -- the loop, with as much fuel as there are models;
  * `Valid` -- every model once, parents before children, and a model behind whatever it depends on
    unless the two lie on a common cycle;
  * `CyclesBroken` -- said of the graph alone: take away what depends on nothing that is left, again
    and again; what is left over is broken at a model that lies on a cycle with all it still needs;
  * `ordered_parents_first` -- the loop ends, with every model once and parents first, always;
  * `valid_iff_cyclesBroken` -- the order is valid for exactly the graphs of `CyclesBroken`;
  * `order_before_customer` -- a model that only points into a cycle is loaded before the cycle.
-/
import Mathlib.Data.Finset.Card

namespace Dbs.LoadOrder

/-! ## 1. The models -/

/-- A local field of a model. -/
structure Field (M : Type) where
  isRelation : Bool
  relatedModel : Option M

/-- What `_meta` says of each model. -/
structure Models (M : Type) where
  /-- `get_parent_list()`: all ancestors of a multi-table child. -/
  parentList : M → List M
  localFields : M → List (Field M)
  inherits_trans : ∀ a b c, a ∈ parentList b → b ∈ parentList c → a ∈ parentList c
  inherits_irrefl : ∀ m, m ∉ parentList m

variable {M : Type} [DecidableEq M] (S : Models M) (models : List M)

def ancestors (model : M) : List M := (S.parentList model).filter (· ∈ models)

/-- The related model of a field, if the model depends on it. -/
def needed (model : M) (field : Field M) : Option M :=
  field.relatedModel.filter fun related => field.isRelation ∧ related ∈ models ∧ related ≠ model

/-- `deps[model]`, as a list that is only asked for its members. -/
def deps (model : M) : List M :=
  ancestors S models model ++ (S.localFields model).filterMap (needed models model)

/-! ## 2. The loop -/

/-- `resolved` holds the members of `ordered`. -/
structure State (M : Type) where
  ordered : List M
  remaining : List M

def State.take (s : State M) (model : M) : State M where
  ordered := s.ordered ++ [model]
  remaining := s.remaining.erase model

/-- `deps[model] <= resolved`. -/
def Free (s : State M) (model : M) : Prop := ∀ dep ∈ deps S models model, dep ∈ s.ordered

instance (s : State M) (model : M) : Decidable (Free S models s model) :=
  inferInstanceAs (Decidable (∀ dep ∈ deps S models model, dep ∈ s.ordered))

/-- The body of `for model in list(remaining)`. -/
def visit (sp : State M × Bool) (model : M) : State M × Bool :=
  if Free S models sp.1 model then (sp.1.take model, true) else sp

/-- `next((model for model in remaining if ancestors[model] <= resolved), remaining[0])`. -/
def cycleBreaker (s : State M) : Option M :=
  (s.remaining.find? fun model => ∀ a ∈ ancestors S models model, a ∈ s.ordered).or
    s.remaining.head?

/-- One turn of `while remaining`. -/
def turn (s : State M) : State M :=
  let (s, progressed) := s.remaining.foldl (visit S models) (s, false)
  if progressed then s
  else match cycleBreaker S models s with
    | some model => s.take model
    | none => s

/-- The `while` loop; nothing when the fuel runs out before the models do. -/
def loop : Nat → State M → Option (List M)
  | 0, s => if s.remaining = [] then some s.ordered else none
  | fuel + 1, s => if s.remaining = [] then some s.ordered else loop fuel (turn S models s)

def start : State M := ⟨[], models⟩

def topologicalOrder : Option (List M) := loop S models models.length (start models)

/-! ## 3. What the order is to be -/

/-- `model` depends on `dep`, directly. -/
def DependsOn (model dep : M) : Prop := dep ∈ deps S models model

/-- From `dep` a chain of dependencies leads to `model`. -/
def LeadsTo (dep model : M) : Prop := Relation.TransGen (DependsOn S models) dep model

def Precedes (ordered : List M) (a b : M) : Prop := ordered.idxOf a < ordered.idxOf b

/-- A valid load order. A dependency from which a chain leads back to the model lies on a common cycle
    with it. -/
structure Valid (ordered : List M) : Prop where
  perm : ordered.Perm models
  parents : ∀ m ∈ models, ∀ a ∈ ancestors S models m, Precedes ordered a m
  dependencies : ∀ m ∈ models, ∀ d ∈ deps S models m,
    Precedes ordered d m ∨ LeadsTo S models d m

/-- What can be taken away once `R` is: each model whose dependencies are. -/
inductive Settled (R : M → Prop) : M → Prop
  | given (m : M) (h : R m) : Settled R m
  | free (m : M) (hm : m ∈ models) (h : ∀ d ∈ deps S models m, Settled R d) : Settled R m

/-- The first model outside `R` whose ancestors are all in it. -/
def FirstLeft (R : M → Prop) (m : M) : Prop :=
  ∃ front back, models = front ++ m :: back ∧ (¬ R m ∧ ∀ a ∈ ancestors S models m, R a) ∧
    ∀ n ∈ front, R n ∨ ∃ a ∈ ancestors S models n, ¬ R a

/-- The sets at which nothing more can be taken away: the first one, and each one after a model is
    taken out of turn. -/
inductive Stands : (M → Prop) → Prop
  | first : Stands (Settled S models fun _ => False)
  | next (R : M → Prop) (m : M) (hR : Stands R) (hm : FirstLeft S models R m) :
      Stands (Settled S models fun n => R n ∨ n = m)

/-- **Every model taken out of turn lies on a cycle with each dependency it still has.** -/
def CyclesBroken : Prop :=
  ∀ R, Stands S models R → ∀ m, FirstLeft S models R m →
    ∀ d ∈ deps S models m, ¬ R d → LeadsTo S models d m

/-! ## 4. Taking models -/

/-- The models are what is ordered and, in their own order, what remains. -/
structure Inv (s : State M) : Prop where
  sub : s.ordered ⊆ models
  nodup : s.ordered.Nodup
  rest : s.remaining = models.filter fun m => m ∉ s.ordered

/-- Each model was taken where `C` held of it and of those before it. -/
def TakenBy (C : List M → M → Prop) (ordered : List M) : Prop :=
  ∀ front m back, ordered = front ++ m :: back → C front m

variable {S : Models M} {models : List M} {s t : State M} {m : M} {C : List M → M → Prop}
  {R : M → Prop}

@[simp] theorem take_ordered : (s.take m).ordered = s.ordered ++ [m] := rfl

variable {ordered : List M}

omit [DecidableEq M] in
theorem takenBy_append (h : TakenBy C ordered) (hm : C ordered m) : TakenBy C (ordered ++ [m]) := by
  intro front n back heq
  rcases List.eq_nil_or_concat back with rfl | ⟨back, z, rfl⟩
  · obtain ⟨rfl, hmn⟩ := List.append_inj' heq rfl
    exact List.singleton_inj.mp hmn ▸ hm
  · have heq' : ordered ++ [m] = (front ++ n :: back) ++ [z] := by simpa using heq
    exact h front n back (List.append_inj' heq' rfl).1

theorem Inv.mem_remaining (h : Inv models s) : m ∈ s.remaining ↔ m ∈ models ∧ m ∉ s.ordered := by
  rw [h.rest, List.mem_filter, decide_eq_true_iff]

theorem Inv.take (hn : models.Nodup) (h : Inv models s) (hm : m ∈ s.remaining) :
    Inv models (s.take m) := by
  obtain ⟨hmem, hnew⟩ := h.mem_remaining.mp hm
  refine ⟨?_, ?_, ?_⟩
  · exact List.append_subset.mpr ⟨h.sub, fun n hn => List.mem_singleton.mp hn ▸ hmem⟩
  · rw [take_ordered, List.nodup_append]
    refine ⟨h.nodup, List.nodup_singleton m, fun a ha b hb => ?_⟩
    rw [List.mem_singleton.mp hb]
    exact fun heq => hnew (heq ▸ ha)
  · show s.remaining.erase m = _
    rw [h.rest, (hn.filter _).erase_eq_filter, List.filter_filter]
    refine List.filter_congr fun n _ => ?_
    simp [bne, beq_eq_decide, Bool.and_comm]

theorem length_take (hm : m ∈ s.remaining) : (s.take m).remaining.length < s.remaining.length := by
  have := List.length_pos_of_mem hm
  show (s.remaining.erase m).length < _
  rw [List.length_erase_of_mem hm]
  omega

theorem inv_start : Inv models (start models) := by
  refine ⟨List.nil_subset _, List.nodup_nil, ?_⟩
  simp [start]

theorem Inv.perm (hn : models.Nodup) (h : Inv models s) (hend : s.remaining = []) :
    s.ordered.Perm models := by
  refine (List.perm_ext_iff_of_nodup h.nodup hn).mpr fun m => ⟨fun hm => h.sub hm, fun hm => ?_⟩
  by_contra hnew
  have := h.mem_remaining.mpr ⟨hm, hnew⟩
  rw [hend] at this
  exact absurd this List.not_mem_nil

/-! ## 5. One pass takes free models only -/

/-- `t` comes from `s` by taking free models, one after another. -/
inductive Frees (S : Models M) (models : List M) : State M → State M → Prop
  | refl (s : State M) : Frees S models s s
  | take (s t : State M) (m : M) (hm : m ∈ s.remaining) (hfree : Free S models s m)
      (h : Frees S models (s.take m) t) : Frees S models s t

theorem foldl_visit (l : List M) (hl : l.Nodup) (p : Bool) (hsub : ∀ m ∈ l, m ∈ s.remaining) :
    ∃ t q, l.foldl (visit S models) (s, p) = (t, q) ∧ Frees S models s t ∧
      (q = false → p = false ∧ ∀ m ∈ l, ¬ Free S models s m) ∧
      (q = true → p = false → t.remaining.length < s.remaining.length) ∧
      t.remaining.length ≤ s.remaining.length := by
  induction l generalizing s p with
  | nil =>
    refine ⟨s, p, rfl, .refl s, fun hp => ⟨hp, nofun⟩, fun hp hq => ?_, le_rfl⟩
    exact absurd (hp.symm.trans hq) (by decide)
  | cons m l ih =>
    obtain ⟨hml, hl⟩ := List.nodup_cons.mp hl
    have hm : m ∈ s.remaining := hsub m (List.mem_cons_self ..)
    by_cases hfree : Free S models s m
    · have hrest : ∀ n ∈ l, n ∈ (s.take m).remaining := by
        intro n hn
        have hne : n ≠ m := fun h => hml (h ▸ hn)
        exact (List.mem_erase_of_ne hne).mpr (hsub n (List.mem_cons_of_mem m hn))
      obtain ⟨t, q, heq, hfrees, hstop, -, hle⟩ := ih hl true hrest
      have hlt := length_take hm
      refine ⟨t, q, ?_, .take s t m hm hfree hfrees, fun hq => ?_, fun _ _ => by omega, by omega⟩
      · rw [List.foldl_cons, visit, if_pos hfree, heq]
      · exact absurd (hstop hq).1 (by decide)
    · obtain ⟨t, q, heq, hfrees, hstop, hgo, hle⟩ :=
        ih hl p fun n hn => hsub n (List.mem_cons_of_mem m hn)
      refine ⟨t, q, ?_, hfrees, fun hq => ?_, hgo, hle⟩
      · rw [List.foldl_cons, visit, if_neg hfree, heq]
      · obtain ⟨hp, hnone⟩ := hstop hq
        exact ⟨hp, List.forall_mem_cons.mpr ⟨hfree, hnone⟩⟩

theorem foldl_visit_stuck (l : List M) (p : Bool) (h : ∀ m ∈ l, ¬ Free S models s m) :
    l.foldl (visit S models) (s, p) = (s, p) := by
  induction l with
  | nil => rfl
  | cons m l ih =>
    rw [List.foldl_cons, visit, if_neg (h m (List.mem_cons_self ..))]
    exact ih fun n hn => h n (List.mem_cons_of_mem m hn)

theorem Frees.trans {u : State M} (h : Frees S models s t) (h' : Frees S models t u) :
    Frees S models s u := by
  induction h with
  | refl => exact h'
  | take s t m hm hfree _ ih => exact .take s u m hm hfree (ih h')

theorem Frees.inv (hn : models.Nodup) (h : Frees S models s t) (hs : Inv models s) :
    Inv models t := by
  induction h with
  | refl => exact hs
  | take s t m hm _ _ ih => exact ih (hs.take hn hm)

/-- A condition that every free model meets holds of what a pass takes. -/
theorem Frees.takenBy (hC : ∀ s m, Free S models s m → C s.ordered m) (h : Frees S models s t)
    (hs : TakenBy C s.ordered) : TakenBy C t.ordered := by
  induction h with
  | refl => exact hs
  | take s t m _ hfree _ ih => exact ih (takenBy_append hs (hC s m hfree))

theorem Frees.isPrefix (h : Frees S models s t) : s.ordered <+: t.ordered := by
  induction h with
  | refl => exact List.prefix_refl _
  | take s t m _ _ _ ih => exact (List.prefix_append s.ordered [m]).trans ih

theorem Frees.settled (hn : models.Nodup) (h : Frees S models s t) (hs : Inv models s)
    (hR : ∀ m ∈ s.ordered, Settled S models R m) : ∀ m ∈ t.ordered, Settled S models R m := by
  induction h with
  | refl => exact hR
  | take s t m hm hfree _ ih =>
    refine ih (hs.take hn hm) fun n hmem => ?_
    rcases List.mem_append.mp hmem with hold | hnew
    · exact hR n hold
    · rw [List.mem_singleton.mp hnew]
      exact .free m (hs.mem_remaining.mp hm).1 fun d hd => hR d (hfree d hd)

/-! ## 6. A turn of the loop -/

/-- Nothing that remains is free. -/
def Stuck (S : Models M) (models : List M) (s : State M) : Prop :=
  ∀ m ∈ s.remaining, ¬ Free S models s m

theorem turn_of_free (hn : models.Nodup) (hs : Inv models s) (h : ¬ Stuck S models s) :
    Frees S models s (turn S models s) ∧
      (turn S models s).remaining.length < s.remaining.length := by
  have hnodup : s.remaining.Nodup := hs.rest ▸ hn.filter _
  obtain ⟨t, q, heq, hfrees, hstop, hgo, -⟩ :=
    @foldl_visit M _ S models s s.remaining hnodup false fun _ => id
  cases q with
  | false => exact absurd (hstop rfl).2 h
  | true =>
    have hturn : turn S models s = t := by rw [turn, heq]; rfl
    exact hturn ▸ ⟨hfrees, hgo rfl rfl⟩

theorem turn_of_stuck (h : Stuck S models s) (hm : cycleBreaker S models s = some m) :
    turn S models s = s.take m := by
  rw [turn, foldl_visit_stuck s.remaining false h]
  simp only [hm, Bool.false_eq_true, if_false]

theorem cycleBreaker_of_firstLeft (hs : Inv models s)
    (hm : FirstLeft S models (· ∈ s.ordered) m) : cycleBreaker S models s = some m := by
  obtain ⟨front, back, heq, ⟨hnew, hanc⟩, hfront⟩ := hm
  have hfind : s.remaining.find? (fun model => ∀ a ∈ ancestors S models model, a ∈ s.ordered) =
      some m := by
    rw [hs.rest, List.find?_filter, List.find?_eq_some_iff_append]
    exact ⟨by simpa using ⟨hnew, hanc⟩, front, back, heq, fun n hn => by simpa using hfront n hn⟩
  rw [cycleBreaker, hfind]
  rfl

/-- Inheritance has no cycle: something that remains has all its ancestors done. -/
theorem exists_ancestors_done (hs : Inv models s) (hm : m ∈ s.remaining) :
    ∃ n ∈ s.remaining, ∀ a ∈ ancestors S models n, a ∈ s.ordered := by
  induction hk : (ancestors S models m).toFinset.card using Nat.strong_induction_on
    generalizing m with
  | h k ih =>
    by_cases hdone : ∀ a ∈ ancestors S models m, a ∈ s.ordered
    · exact ⟨m, hm, hdone⟩
    · obtain ⟨a, ha, hleft⟩ : ∃ a ∈ ancestors S models m, a ∉ s.ordered := by simpa using hdone
      obtain ⟨hparent, hmem⟩ := List.mem_filter.mp ha
      have hmem : a ∈ models := of_decide_eq_true hmem
      have hsub : (ancestors S models a).toFinset ⊂ (ancestors S models m).toFinset := by
        refine Finset.ssubset_iff_subset_ne.mpr ⟨fun b hb => ?_, fun heq => ?_⟩
        · obtain ⟨hb, hbm⟩ := List.mem_filter.mp (List.mem_toFinset.mp hb)
          exact List.mem_toFinset.mpr
            (List.mem_filter.mpr ⟨S.inherits_trans b a m hb hparent, hbm⟩)
        · have ha' : a ∈ (ancestors S models a).toFinset := heq ▸ List.mem_toFinset.mpr ha
          exact S.inherits_irrefl a (List.mem_filter.mp (List.mem_toFinset.mp ha')).1
      exact ih _ (hk ▸ Finset.card_lt_card hsub) (hs.mem_remaining.mpr ⟨hmem, hleft⟩) rfl

theorem exists_firstLeft (hs : Inv models s) (hne : s.remaining ≠ []) :
    ∃ m ∈ s.remaining, FirstLeft S models (· ∈ s.ordered) m := by
  obtain ⟨n, hn⟩ := List.exists_mem_of_ne_nil _ hne
  obtain ⟨n, hn, hdone⟩ := exists_ancestors_done (S := S) hs hn
  obtain ⟨hmem, hnew⟩ := hs.mem_remaining.mp hn
  have hfind : (models.find? fun n =>
      n ∉ s.ordered ∧ ∀ a ∈ ancestors S models n, a ∈ s.ordered).isSome :=
    List.find?_isSome.mpr ⟨n, hmem, by simpa using ⟨hnew, hdone⟩⟩
  obtain ⟨m, hm⟩ := Option.isSome_iff_exists.mp hfind
  obtain ⟨hleft, front, back, heq, hfront⟩ := List.find?_eq_some_iff_append.mp hm
  have hleft := of_decide_eq_true hleft
  refine ⟨m, hs.mem_remaining.mpr ⟨heq ▸ (by simp), hleft.1⟩, front, back, heq, hleft, ?_⟩
  exact fun n hn => by simpa using hfront n hn

theorem Stuck.mem_iff (hn : models.Nodup) (hs : Inv models s) (ht : Inv models t)
    (h : Frees S models s t) (hstuck : Stuck S models t) (m : M) :
    m ∈ t.ordered ↔ Settled S models (· ∈ s.ordered) m := by
  refine ⟨h.settled hn hs (fun n hmem => .given n hmem) m, fun hm => ?_⟩
  induction hm with
  | given n hmem => exact h.isPrefix.subset hmem
  | free n hmem _ ih =>
    by_contra hnew
    exact hstuck n (ht.mem_remaining.mpr ⟨hmem, hnew⟩) ih

/-! ## 7. The whole loop -/

/-- The loop gets from `s` to `t`. -/
inductive Follows (S : Models M) (models : List M) : State M → State M → Prop
  | refl (s : State M) : Follows S models s s
  | turn (s t : State M) (hne : s.remaining ≠ []) (h : Follows S models (turn S models s) t) :
      Follows S models s t

theorem Follows.trans {u : State M} (h : Follows S models s t) (h' : Follows S models t u) :
    Follows S models s u := by
  induction h with
  | refl => exact h'
  | turn s t hne _ ih => exact .turn s u hne (ih h')

theorem loop_done (fuel : Nat) (h : s.remaining = []) : loop S models fuel s = some s.ordered := by
  cases fuel <;> exact if_pos h

theorem loop_turn (fuel : Nat) (h : s.remaining ≠ []) :
    loop S models (fuel + 1) s = loop S models fuel (turn S models s) :=
  if_neg h

theorem turn_cases (hn : models.Nodup) (hs : Inv models s) (hne : s.remaining ≠ []) :
    (Frees S models s (turn S models s) ∧
      (turn S models s).remaining.length < s.remaining.length) ∨
    (Stuck S models s ∧ ∃ m ∈ s.remaining, FirstLeft S models (· ∈ s.ordered) m ∧
      turn S models s = s.take m) := by
  by_cases hstuck : Stuck S models s
  · obtain ⟨m, hm, hfirst⟩ := exists_firstLeft (S := S) hs hne
    exact .inr ⟨hstuck, m, hm, hfirst,
      turn_of_stuck hstuck (cycleBreaker_of_firstLeft hs hfirst)⟩
  · exact .inl (turn_of_free hn hs hstuck)

theorem Inv.turn (hn : models.Nodup) (hs : Inv models s) (hne : s.remaining ≠ []) :
    Inv models (turn S models s) ∧ (turn S models s).remaining.length < s.remaining.length := by
  rcases turn_cases (S := S) hn hs hne with ⟨hfrees, hlt⟩ | ⟨-, m, hm, -, heq⟩
  · exact ⟨hfrees.inv hn hs, hlt⟩
  · exact heq ▸ ⟨hs.take hn hm, length_take hm⟩

/-- What every turn keeps holds at the end of the loop, and the loop ends. -/
theorem loop_invariant {I : State M → Prop} (hn : models.Nodup)
    (hturn : ∀ s, Inv models s → I s → s.remaining ≠ [] → I (turn S models s)) (fuel : Nat)
    (hs : Inv models s) (hI : I s) (hfuel : s.remaining.length ≤ fuel) :
    ∃ t, Follows S models s t ∧ loop S models fuel s = some t.ordered ∧ t.remaining = [] ∧
      Inv models t ∧ I t := by
  induction fuel generalizing s with
  | zero =>
    have hend : s.remaining = [] := List.eq_nil_of_length_eq_zero (by omega)
    exact ⟨s, .refl s, loop_done 0 hend, hend, hs, hI⟩
  | succ fuel ih =>
    by_cases hend : s.remaining = []
    · exact ⟨s, .refl s, loop_done _ hend, hend, hs, hI⟩
    · obtain ⟨hs', hlt⟩ := hs.turn (S := S) hn hend
      obtain ⟨t, hfollows, hloop, ht⟩ := ih hs' (hturn s hs hI hend) (by omega)
      exact ⟨t, .turn s t hend hfollows, (loop_turn fuel hend).trans hloop, ht⟩

theorem loop_of_follows (h : Follows S models s t) (hn : models.Nodup) (hs : Inv models s)
    {fuel : Nat} (hloop : loop S models fuel s = some ordered) :
    ∃ fuel', loop S models fuel' t = some ordered := by
  induction h generalizing fuel with
  | refl s => exact ⟨fuel, hloop⟩
  | turn s t hne _ ih =>
    cases fuel with
    | zero => exact absurd ((if_neg hne).symm.trans hloop) nofun
    | succ fuel => exact ih (hs.turn hn hne).1 (loop_turn fuel hne ▸ hloop)

theorem turn_isPrefix (hn : models.Nodup) (hs : Inv models s) (hne : s.remaining ≠ []) :
    s.ordered <+: (turn S models s).ordered := by
  rcases turn_cases (S := S) hn hs hne with ⟨hfrees, -⟩ | ⟨-, m, -, -, heq⟩
  · exact hfrees.isPrefix
  · exact heq ▸ List.prefix_append s.ordered [m]

theorem loop_isPrefix (hn : models.Nodup) (hs : Inv models s) {fuel : Nat}
    (hloop : loop S models fuel s = some ordered) : s.ordered <+: ordered := by
  induction fuel generalizing s with
  | zero =>
    obtain ⟨-, heq⟩ := Option.ite_none_right_eq_some.mp hloop
    exact Option.some.inj heq ▸ List.prefix_refl _
  | succ fuel ih =>
    by_cases hend : s.remaining = []
    · rw [loop_done _ hend] at hloop
      exact Option.some.inj hloop ▸ List.prefix_refl _
    · rw [loop_turn fuel hend] at hloop
      exact (turn_isPrefix hn hs hend).trans (ih (hs.turn hn hend).1 hloop)

/-! ## 8. Parents first -/

theorem precedes_of_takenBy (hnodup : ordered.Nodup) {a : M}
    (hC : TakenBy C ordered) (hm : m ∈ ordered) (ha : ∀ front, C front m → a ∈ front) :
    Precedes ordered a m := by
  obtain ⟨front, back, rfl⟩ := List.append_of_mem hm
  have hnew : m ∉ front := fun h =>
    List.disjoint_of_nodup_append hnodup h (List.mem_cons_self ..)
  have hmem := ha front (hC front m back rfl)
  rw [Precedes, List.idxOf_append_of_mem hmem, List.idxOf_append_of_notMem hnew]
  have := List.idxOf_lt_length_iff.mpr hmem
  omega

/-- Models are taken with their ancestors in front of them. -/
def AncestorsDone (S : Models M) (models : List M) (front : List M) (m : M) : Prop :=
  ∀ a ∈ ancestors S models m, a ∈ front

theorem turn_ancestorsDone (hn : models.Nodup) (hs : Inv models s)
    (h : TakenBy (AncestorsDone S models) s.ordered) (hne : s.remaining ≠ []) :
    TakenBy (AncestorsDone S models) (turn S models s).ordered := by
  rcases turn_cases (S := S) hn hs hne with ⟨hfrees, -⟩ | ⟨-, m, hm, hfirst, heq⟩
  · exact hfrees.takenBy (fun s m hfree a ha => hfree a (List.mem_append_left _ ha)) h
  · obtain ⟨front, back, -, ⟨-, hanc⟩, -⟩ := hfirst
    exact heq ▸ takenBy_append h hanc

omit [DecidableEq M] in
theorem takenBy_nil : TakenBy C [] := fun front m back h => by
  cases front <;> cases h

/-- **The loop ends, with every model once and each parent before its children.** -/
theorem ordered_parents_first (S : Models M) (hn : models.Nodup) :
    ∃ ordered, topologicalOrder S models = some ordered ∧ ordered.Perm models ∧
      ∀ m ∈ models, ∀ a ∈ ancestors S models m, Precedes ordered a m := by
  obtain ⟨t, -, hloop, hend, ht, hC⟩ := loop_invariant (S := S) hn
    (fun s hs h hne => turn_ancestorsDone hn hs h hne) models.length inv_start takenBy_nil le_rfl
  have hperm := ht.perm hn hend
  refine ⟨t.ordered, hloop, hperm, fun m hm a ha => ?_⟩
  exact precedes_of_takenBy ht.nodup hC (hperm.mem_iff.mpr hm) fun front h => h a ha

/-! ## 9. Dependencies first, where cycles are broken on a cycle -/

def DependenciesDone (S : Models M) (models : List M) (front : List M) (m : M) : Prop :=
  ∀ d ∈ deps S models m, d ∈ front ∨ LeadsTo S models d m

/-- The state comes by free models from one at which what can be taken away stands. -/
def Based (S : Models M) (models : List M) (s : State M) : Prop :=
  ∃ u, Inv models u ∧ Frees S models u s ∧ Stands S models (Settled S models (· ∈ u.ordered))

theorem based_start : Based S models (start models) := by
  refine ⟨start models, inv_start, .refl _, ?_⟩
  have hempty : (fun m : M => m ∈ (start models).ordered) = fun _ => False :=
    funext fun m => propext ⟨fun h => absurd h List.not_mem_nil, False.elim⟩
  exact hempty ▸ .first

theorem Based.stands (hn : models.Nodup) (hs : Inv models s) (h : Based S models s)
    (hstuck : Stuck S models s) : Stands S models (· ∈ s.ordered) := by
  obtain ⟨u, hu, hfrees, hstands⟩ := h
  have heq : (fun m => m ∈ s.ordered) = Settled S models (· ∈ u.ordered) :=
    funext fun m => propext (hstuck.mem_iff hn hu hs hfrees m)
  exact heq ▸ hstands

theorem settled_take : Settled S models (· ∈ (s.take m).ordered) =
    Settled S models fun n => n ∈ s.ordered ∨ n = m := by
  have heq : (fun n => n ∈ (s.take m).ordered) = fun n => n ∈ s.ordered ∨ n = m := by
    funext n
    simp
  rw [heq]

theorem turn_based (hn : models.Nodup) (hs : Inv models s) (h : Based S models s)
    (hne : s.remaining ≠ []) : Based S models (turn S models s) := by
  rcases turn_cases (S := S) hn hs hne with ⟨hfrees, -⟩ | ⟨hstuck, m, hm, hfirst, heq⟩
  · obtain ⟨u, hu, hbefore, hstands⟩ := h
    exact ⟨u, hu, hbefore.trans hfrees, hstands⟩
  · refine heq ▸ ⟨s.take m, hs.take hn hm, .refl _, ?_⟩
    rw [settled_take]
    exact .next _ m (h.stands hn hs hstuck) hfirst

theorem turn_dependenciesDone (hC : CyclesBroken S models) (hn : models.Nodup) (hs : Inv models s)
    (hbased : Based S models s) (h : TakenBy (DependenciesDone S models) s.ordered)
    (hne : s.remaining ≠ []) : TakenBy (DependenciesDone S models) (turn S models s).ordered := by
  rcases turn_cases (S := S) hn hs hne with ⟨hfrees, -⟩ | ⟨hstuck, m, hm, hfirst, heq⟩
  · exact hfrees.takenBy (fun s m hfree d hd => .inl (hfree d hd)) h
  · refine heq ▸ takenBy_append h fun d hd => ?_
    by_cases hdone : d ∈ s.ordered
    · exact .inl hdone
    · exact .inr (hC _ (hbased.stands hn hs hstuck) m hfirst d hd hdone)

/-- Passes are made until nothing more is free. -/
theorem settle (hn : models.Nodup) (hs : Inv models s) :
    ∃ t, Follows S models s t ∧ Frees S models s t ∧ Stuck S models t := by
  induction hk : s.remaining.length using Nat.strong_induction_on generalizing s with
  | h k ih =>
    by_cases hstuck : Stuck S models s
    · exact ⟨s, .refl s, .refl s, hstuck⟩
    · have hne : s.remaining ≠ [] := by
        intro hnil
        exact hstuck (by rw [Stuck, hnil]; exact nofun)
      obtain ⟨hfrees, hlt⟩ := turn_of_free hn hs hstuck
      obtain ⟨t, hfollows, hrest, ht⟩ := ih _ (hk ▸ hlt) (hfrees.inv hn hs) rfl
      exact ⟨t, .turn s t hne hfollows, hfrees.trans hrest, ht⟩

/-- Every set that stands is what the loop has ordered when it is stuck. -/
theorem Stands.reached (hn : models.Nodup) (h : Stands S models R) :
    ∃ t, Follows S models (start models) t ∧ Inv models t ∧ Stuck S models t ∧
      ∀ m, m ∈ t.ordered ↔ R m := by
  induction h with
  | first =>
    obtain ⟨t, hfollows, hfrees, hstuck⟩ := settle (S := S) hn inv_start
    have ht := hfrees.inv hn inv_start
    refine ⟨t, hfollows, ht, hstuck, fun m => ?_⟩
    rw [hstuck.mem_iff hn inv_start ht hfrees]
    simp [start]
  | next R m _ hm ih =>
    obtain ⟨s, hbefore, hs, hstuck, hmem⟩ := ih
    obtain rfl : (fun n => n ∈ s.ordered) = R := funext fun n => propext (hmem n)
    have hbreaker := cycleBreaker_of_firstLeft hs hm
    obtain ⟨front, back, heq, ⟨hnew, -⟩, -⟩ := hm
    have hm : m ∈ s.remaining := hs.mem_remaining.mpr ⟨heq ▸ (by simp), hnew⟩
    have hs' := hs.take hn hm
    obtain ⟨t, hfollows, hfrees, hstuck'⟩ := settle (S := S) hn hs'
    have ht := hfrees.inv hn hs'
    refine ⟨t, hbefore.trans (.turn s t (List.ne_nil_of_mem hm) ?_), ht, hstuck', fun n => ?_⟩
    · exact turn_of_stuck hstuck hbreaker ▸ hfollows
    · rw [hstuck'.mem_iff hn hs' ht hfrees, settled_take]

theorem mem_of_precedes {front rest : List M} {d : M}
    (h : Precedes (front ++ m :: rest) d m) (hnew : m ∉ front) : d ∈ front := by
  by_contra hd
  rw [Precedes, List.idxOf_append_of_notMem hnew, List.idxOf_append_of_notMem hd,
    List.idxOf_cons_self] at h
  omega

/-- **Where the order is valid**: exactly where each model taken out of turn lies on a cycle with every
    dependency it still has. -/
theorem valid_iff_cyclesBroken (S : Models M) (models : List M) (hn : models.Nodup) :
    (∃ ordered, topologicalOrder S models = some ordered ∧ Valid S models ordered) ↔
      CyclesBroken S models := by
  constructor
  · rintro ⟨ordered, hordered, hvalid⟩ R hR m hm d hd hleft
    obtain ⟨s, hfollows, hs, hstuck, hmem⟩ := hR.reached hn
    obtain rfl : (fun n => n ∈ s.ordered) = R := funext fun n => propext (hmem n)
    have hbreaker := cycleBreaker_of_firstLeft hs hm
    obtain ⟨front, back, heq, ⟨hnew, -⟩, -⟩ := hm
    have hmodel : m ∈ models := heq ▸ (by simp)
    have hm : m ∈ s.remaining := hs.mem_remaining.mpr ⟨hmodel, hnew⟩
    have hnext : Follows S models (start models) (s.take m) :=
      hfollows.trans (.turn s _ (List.ne_nil_of_mem hm)
        (turn_of_stuck hstuck hbreaker ▸ .refl _))
    obtain ⟨fuel, hloop⟩ := loop_of_follows hnext hn inv_start hordered
    obtain ⟨rest, rfl⟩ := loop_isPrefix hn (hs.take hn hm) hloop
    refine (hvalid.dependencies m hmodel d hd).resolve_left fun hprecedes => hleft ?_
    rw [take_ordered, List.append_assoc] at hprecedes
    exact mem_of_precedes hprecedes hnew
  · intro hC
    obtain ⟨ordered, hordered, hperm, hparents⟩ := ordered_parents_first S hn
    have hturn : ∀ s, Inv models s →
        Based S models s ∧ TakenBy (DependenciesDone S models) s.ordered → s.remaining ≠ [] →
        Based S models (turn S models s) ∧
          TakenBy (DependenciesDone S models) (turn S models s).ordered :=
      fun s hs h hne =>
        ⟨turn_based hn hs h.1 hne, turn_dependenciesDone hC hn hs h.1 h.2 hne⟩
    obtain ⟨t, -, hloop, -, ht, -, hdone⟩ := loop_invariant hn hturn models.length inv_start
      ⟨based_start, takenBy_nil⟩ le_rfl
    obtain rfl : ordered = t.ordered := Option.some.inj (hordered.symm.trans hloop)
    refine ⟨_, hordered, hperm, hparents, fun m hm d hd => ?_⟩
    by_cases hback : LeadsTo S models d m
    · exact .inr hback
    · refine .inl (precedes_of_takenBy ht.nodup hdone (hperm.mem_iff.mpr hm) fun front h => ?_)
      exact (h d hd).resolve_right hback

/-! ## 10. A model that only points into a cycle -/

/-- An order names its customer; a customer and an address name each other. -/
inductive Shop
  | order
  | customer
  | address
  deriving DecidableEq

def Shop.related : Shop → Shop
  | .order => .customer
  | .customer => .address
  | .address => .customer

def shop : Models Shop where
  parentList _ := []
  localFields model := [⟨true, some model.related⟩]
  inherits_trans := nofun
  inherits_irrefl _ := List.not_mem_nil

theorem valid_iff_cyclesBroken_shop :
    [Shop.customer, .address, .order].Nodup ∧
      ((∃ ordered, topologicalOrder shop [Shop.customer, .address, .order] = some ordered ∧
        Valid shop [Shop.customer, .address, .order] ordered) ↔
        CyclesBroken shop [Shop.customer, .address, .order]) :=
  ⟨by decide, valid_iff_cyclesBroken shop _ (by decide)⟩

/-- **The order is loaded before its customer**, though no chain leads from the customer to it. -/
theorem order_before_customer :
    topologicalOrder shop [.order, .customer, .address] =
        some [Shop.order, .customer, .address] ∧
      Shop.customer ∈ deps shop [.order, .customer, .address] .order ∧
      ¬ LeadsTo shop [.order, .customer, .address] .customer .order ∧
      ∀ ordered, topologicalOrder shop [.order, .customer, .address] = some ordered →
        ¬ Valid shop [.order, .customer, .address] ordered := by
  have hrun : topologicalOrder shop [.order, .customer, .address] =
      some [Shop.order, .customer, .address] := by decide
  have hdep : Shop.customer ∈ deps shop [.order, .customer, .address] .order := by decide
  have hback : ¬ LeadsTo shop [.order, .customer, .address] .customer .order := by
    have hnone : ∀ model, Shop.order ∉ deps shop [.order, .customer, .address] model := by
      intro model
      cases model <;> decide
    intro hchain
    cases hchain with
    | single h | tail _ h => exact hnone _ h
  refine ⟨hrun, hdep, hback, fun ordered hordered hvalid => ?_⟩
  obtain rfl := Option.some.inj (hrun.symm.trans hordered)
  have hprecedes := (hvalid.dependencies .order (by decide) .customer hdep).resolve_right hback
  exact absurd hprecedes (by unfold Precedes; decide)

end Dbs.LoadOrder
