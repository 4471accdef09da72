/-
  File:      Dbs/Lib/Effects.lean
  Subject:   PROGRAMS THAT CHANGE A STATE AND MAY RAISE, keeping what they changed: `ExceptT ε (StateM
             σ)`.

  * `exec` -- the result and the state of a program started in a state;
  * `give`, `focus` -- a result without state; a program on a part of the state;
  * `finishing`, `cleaning` -- a last part that always runs, or where the program raises;
  * the `exec_…` lemmas -- one for each way a program is built; `exec_bind_ok`, `exec_bind_error` --
    a sequence from the outcome of its first part;
  * `Ends` -- how a program may end: it returns and `post` holds, or it raises and `fail` holds;
    `ends_bind`, `ends_forM` -- sequences and loops, the loop by an invariant over the turns done;
  * `Keeps` -- what holds in every state the program may end in when it held before;
  * `Mirrors` -- a program over a larger state does to a part of it what another program does.
-/
import Mathlib.Control.Monad.Basic

namespace Effects

variable {ε σ α β : Type}

abbrev Prog (ε σ : Type) : Type → Type := ExceptT ε (StateM σ)

def exec (x : Prog ε σ α) (s : σ) : Except ε α × σ := x.run.run s

@[simp] theorem exec_pure (a : α) (s : σ) : exec (pure a : Prog ε σ α) s = (.ok a, s) := rfl

@[simp] theorem exec_get (s : σ) : exec (get : Prog ε σ σ) s = (.ok s, s) := rfl

@[simp] theorem exec_set (s t : σ) : exec (set t : Prog ε σ PUnit) s = (.ok ⟨⟩, t) := rfl

@[simp] theorem exec_modify (f : σ → σ) (s : σ) :
    exec (modify f : Prog ε σ PUnit) s = (.ok ⟨⟩, f s) := rfl

@[simp] theorem exec_throw (e : ε) (s : σ) : exec (throw e : Prog ε σ α) s = (.error e, s) := rfl

/-- A result that was computed without the state. -/
def give : Except ε α → Prog ε σ α
  | .ok a => pure a
  | .error e => throw e

@[simp] theorem exec_give (x : Except ε α) (s : σ) : exec (give x : Prog ε σ α) s = (x, s) := by
  cases x <;> rfl

/-- A program on a part of the state. -/
def focus {τ : Type} (part : τ → σ) (put : τ → σ → τ) (x : Prog ε σ α) : Prog ε τ α := do
  let t ← get
  let r := exec x (part t)
  set (put t r.2)
  give r.1

/-- How a program ends, as a value. -/
def caught (x : Prog ε σ α) : Prog ε σ (Except ε α) := do
  let s ← get
  let r := exec x s
  set r.2
  pure r.1

@[simp] theorem exec_caught (x : Prog ε σ α) (s : σ) :
    exec (caught x) s = (.ok (exec x s).1, (exec x s).2) := rfl

/-- `last` runs however the program ends; what `last` raises leaves it. -/
def finishing (x : Prog ε σ α) (last : Prog ε σ PUnit) : Prog ε σ α := do
  let r ← caught x
  last
  give r

/-- `clean` runs where the program raises. -/
def cleaning (x : Prog ε σ α) (clean : Prog ε σ PUnit) : Prog ε σ α :=
  tryCatch x fun e => do
    clean
    throw e

theorem exec_bind (x : Prog ε σ α) (f : α → Prog ε σ β) (s : σ) :
    exec (x >>= f) s = match exec x s with
      | (.ok a, t) => exec (f a) t
      | (.error e, t) => (.error e, t) := by
  show (x.run >>= ExceptT.bindCont f).run s = _
  rw [StateT.run_bind]
  show ExceptT.bindCont f (exec x s).1 (exec x s).2 = _
  cases exec x s with
  | mk r t => cases r <;> rfl

variable {f : α → Prog ε σ β}

theorem exec_bind_ok {x : Prog ε σ α} {s t : σ} {a : α}
    (h : exec x s = (.ok a, t)) : exec (x >>= f) s = exec (f a) t := by
  rw [exec_bind, h]

theorem exec_bind_error {x : Prog ε σ α} {s t : σ} {e : ε}
    (h : exec x s = (.error e, t)) : exec (x >>= f) s = (.error e, t) := by
  rw [exec_bind, h]

theorem exec_tryCatch (x : Prog ε σ α) (handler : ε → Prog ε σ α) (s : σ) :
    exec (tryCatch x handler) s = match exec x s with
      | (.ok a, t) => (.ok a, t)
      | (.error e, t) => exec (handler e) t := by
  show ((x.run >>= fun r => match r with
    | .ok a => pure (.ok a)
    | .error e => (handler e).run : StateM σ (Except ε α))).run s = _
  rw [StateT.run_bind]
  show (match (exec x s).1 with
    | .ok a => pure (.ok a)
    | .error e => (handler e).run : StateM σ (Except ε α)) (exec x s).2 = _
  cases exec x s with
  | mk r t => cases r <;> rfl

theorem exec_forM_nil (f : α → Prog ε σ PUnit) (s : σ) : exec ([].forM f) s = (.ok ⟨⟩, s) := rfl

theorem exec_forM_cons (f : α → Prog ε σ PUnit) (a : α) (l : List α) (s : σ) :
    exec ((a :: l).forM f) s = match exec (f a) s with
      | (.ok _, t) => exec (l.forM f) t
      | (.error e, t) => (.error e, t) := by
  show exec (f a >>= fun _ => l.forM f) s = _
  rw [exec_bind]
  cases exec (f a) s with
  | mk r t => cases r <;> rfl

theorem exec_focus {τ : Type} (part : τ → σ) (put : τ → σ → τ) (x : Prog ε σ α) (t : τ) :
    exec (focus part put x) t = ((exec x (part t)).1, put t (exec x (part t)).2) := by
  unfold focus
  rw [exec_bind_ok (exec_get t), exec_bind_ok (exec_set t _), exec_give]

/-- What a sequence that returned did. -/
theorem bind_eq_ok {x : Prog ε σ α} {s u : σ} {b : β} (h : exec (x >>= f) s = (.ok b, u)) :
    ∃ a t, exec x s = (.ok a, t) ∧ exec (f a) t = (.ok b, u) := by
  rw [exec_bind] at h
  cases hx : exec x s with
  | mk r t =>
    rw [hx] at h
    cases r with
    | ok a => exact ⟨a, t, rfl, h⟩
    | error e => exact absurd (congrArg Prod.fst h) nofun

/-! ## How a program ends -/

/-- It returned and `post` holds of the value and the state, or it raised and `fail` holds. -/
def Ends (post : α → σ → Prop) (fail : ε → σ → Prop) : Except ε α × σ → Prop
  | (.ok a, t) => post a t
  | (.error e, t) => fail e t

section Rules

variable {post : α → σ → Prop} {fail : ε → σ → Prop}

variable {r : Except ε α × σ}

section

variable (h : Ends post fail r)

include h

theorem Ends.mono {post' : α → σ → Prop} {fail' : ε → σ → Prop}
    (hp : ∀ a t, post a t → post' a t) (hf : ∀ e t, fail e t → fail' e t) :
    Ends post' fail' r := by
  obtain ⟨r, t⟩ := r
  cases r with
  | ok a => exact hp a t h
  | error e => exact hf e t h

theorem Ends.and {post' : α → σ → Prop}
    (h' : Ends post' fail r) : Ends (fun a t => post a t ∧ post' a t) fail r := by
  obtain ⟨r, t⟩ := r
  cases r with
  | ok a => exact ⟨h, h'⟩
  | error e => exact h

theorem Ends.of_ok {a : α} {t : σ} (hr : r = (.ok a, t)) : post a t := by
  rw [hr] at h; exact h

theorem Ends.of_error {e : ε} {t : σ} (hr : r = (.error e, t)) : fail e t := by
  rw [hr] at h; exact h

/-- Where raising is excluded the program returned. -/
theorem Ends.returns (hf : ∀ e t, ¬ fail e t) : ∃ a t, r = (.ok a, t) ∧ post a t := by
  obtain ⟨r, t⟩ := r
  cases r with
  | ok a => exact ⟨a, t, rfl, h⟩
  | error e => exact absurd h (hf e t)

end

variable {s : σ}

/-- **A sequence**: the second part starts where the first returned. -/
theorem ends_bind {x : Prog ε σ β} {f : β → Prog ε σ α} {M : β → σ → Prop}
    (hx : Ends M fail (exec x s)) (hf : ∀ b t, M b t → Ends post fail (exec (f b) t)) :
    Ends post fail (exec (x >>= f) s) := by
  rw [exec_bind]
  revert hx
  cases exec x s with
  | mk r t =>
    intro hx
    cases r with
    | ok b => exact hf b t hx
    | error e => exact hx

theorem ends_forM_append {f : β → Prog ε σ PUnit} {l l' : List β}
    {post M : PUnit → σ → Prop} (h : Ends M fail (exec (l.forM f) s))
    (h' : ∀ u t, M u t → Ends post fail (exec (l'.forM f) t)) :
    Ends post fail (exec ((l ++ l').forM f) s) := by
  induction l generalizing s with
  | nil => exact h' _ _ h
  | cons a l ih =>
    rw [exec_forM_cons] at h
    rw [List.cons_append, exec_forM_cons]
    revert h
    cases exec (f a) s with
    | mk r t =>
      intro h
      cases r with
      | ok u => exact ih h
      | error e => exact h

variable {x : Prog ε σ α}

/-- A handler starts where the program raised. -/
theorem ends_tryCatch {handler : ε → Prog ε σ α} {M : ε → σ → Prop}
    (hx : Ends post M (exec x s)) (hf : ∀ e t, M e t → Ends post fail (exec (handler e) t)) :
    Ends post fail (exec (tryCatch x handler) s) := by
  rw [exec_tryCatch]
  revert hx
  cases exec x s with
  | mk r t =>
    intro hx
    cases r with
    | ok a => exact hx
    | error e => exact hf e t hx

/-- The last part starts where the program returned or raised. -/
theorem ends_finishing {last : Prog ε σ PUnit} {M : α → σ → Prop} {N : ε → σ → Prop}
    (hx : Ends M N (exec x s)) (hok : ∀ a t, M a t → Ends (fun _ u => post a u) fail (exec last t))
    (herror : ∀ e t, N e t → Ends (fun _ u => fail e u) fail (exec last t)) :
    Ends post fail (exec (finishing x last) s) := by
  unfold finishing
  rw [exec_bind_ok (exec_caught x s)]
  revert hx
  cases exec x s with
  | mk r t =>
    intro hx
    cases r with
    | ok a => exact ends_bind (hok a t hx) fun _ _ h => by rwa [exec_give]
    | error e => exact ends_bind (herror e t hx) fun _ _ h => by rwa [exec_give]

theorem ends_cleaning {clean : Prog ε σ PUnit} {N : ε → σ → Prop}
    (hx : Ends post N (exec x s))
    (hclean : ∀ e t, N e t → Ends (fun _ u => fail e u) fail (exec clean t)) :
    Ends post fail (exec (cleaning x clean) s) :=
  ends_tryCatch hx fun e t h => ends_bind (hclean e t h) fun _ _ hu => hu

/-- **A loop**: `I done` holds after the turns of `done` when every turn carries it on; a turn that
    raises ends the loop. -/
theorem ends_forM {f : α → Prog ε σ PUnit} {I : List α → σ → Prop} {l : List α}
    (hstep : ∀ done a rest s, l = done ++ a :: rest → I done s →
      Ends (fun _ t => I (done ++ [a]) t) fail (exec (f a) s))
    (h : I [] s) : Ends (fun _ t => I l t) fail (exec (l.forM f) s) := by
  -- the turns still to come, for any turns done
  have key : ∀ rest done s, l = done ++ rest → I done s →
      Ends (fun _ t => I l t) fail (exec (rest.forM f) s) := by
    intro rest
    induction rest with
    | nil =>
      intro done s hl hI
      rw [exec_forM_nil]
      rw [List.append_nil] at hl
      exact hl ▸ hI
    | cons a rest ih =>
      intro done s hl hI
      have ha := hstep done a rest s hl hI
      rw [exec_forM_cons]
      revert ha
      cases exec (f a) s with
      | mk r t =>
        intro ha
        cases r with
        | ok u => exact ih (done ++ [a]) t (by rw [hl]; simp) ha
        | error e => exact ha
  exact key l [] s rfl h

end Rules

/-! ## What every end keeps -/

/-- `I` holds however the program ends. -/
def Keeps (I : σ → Prop) (x : Prog ε σ α) : Prop := ∀ s, I s → I (exec x s).2

section Keeps

variable {I : σ → Prop}

theorem keeps_iff_ends {x : Prog ε σ α} :
    Keeps I x ↔ ∀ s, I s → Ends (fun _ t => I t) (fun _ t => I t) (exec x s) := by
  refine forall_congr' fun s => imp_congr_right fun _ => ?_
  cases exec x s with
  | mk r t => cases r <;> exact Iff.rfl

theorem keeps_pure (a : α) : Keeps I (pure a : Prog ε σ α) := fun _ h => h

theorem keeps_get : Keeps I (get : Prog ε σ σ) := fun _ h => h

theorem keeps_throw (e : ε) : Keeps I (throw e : Prog ε σ α) := fun _ h => h

theorem keeps_modify {f : σ → σ} (hf : ∀ s, I s → I (f s)) : Keeps I (modify f : Prog ε σ PUnit) :=
  fun s h => hf s h

theorem keeps_bind {x : Prog ε σ β} {f : β → Prog ε σ α} (hx : Keeps I x)
    (hf : ∀ b, Keeps I (f b)) : Keeps I (x >>= f) := by
  intro s h
  have hs := hx s h
  rw [exec_bind]
  revert hs
  cases exec x s with
  | mk r t =>
    intro hs
    cases r with
    | ok b => exact hf b t hs
    | error e => exact hs

theorem keeps_ite {c : Prop} [Decidable c] {x y : Prog ε σ α} (hx : Keeps I x) (hy : Keeps I y) :
    Keeps I (if c then x else y) := by
  split
  · exact hx
  · exact hy

theorem keeps_tryCatch {x : Prog ε σ α} {handler : ε → Prog ε σ α} (hx : Keeps I x)
    (hf : ∀ e, Keeps I (handler e)) : Keeps I (tryCatch x handler) := by
  intro s h
  have hs := hx s h
  rw [exec_tryCatch]
  revert hs
  cases exec x s with
  | mk r t =>
    intro hs
    cases r with
    | ok a => exact hs
    | error e => exact hf e t hs

theorem keeps_forM {f : α → Prog ε σ PUnit} (hf : ∀ a, Keeps I (f a)) (l : List α) :
    Keeps I (l.forM f) := by
  induction l with
  | nil => exact keeps_pure _
  | cons a l ih => exact keeps_bind (hf a) fun _ => ih

end Keeps

/-! ## Programs over a larger state -/

section Mirrors

variable {τ ε' : Type} {view : τ → σ} {lift : ε → ε'}

/-- `x` from `t` ends as `y` from `s` does, and leaves the view of its state as `y` leaves its own. -/
def Mirrors (view : τ → σ) (lift : ε → ε') (x : Prog ε' τ α) (t : τ) (y : Prog ε σ α) (s : σ) : Prop :=
  (exec x t).1 = (exec y s).1.mapError lift ∧ view (exec x t).2 = (exec y s).2

variable {x : Prog ε' τ α} {y : Prog ε σ α}

theorem mirrors_of_eq {t : τ} {s : σ} (hs : view t = s)
    (h : Mirrors view lift x t y (view t)) : Mirrors view lift x t y s := hs ▸ h

theorem mirrors_bind {x : Prog ε' τ β} {y : Prog ε σ β} {f : β → Prog ε' τ α}
    {g : β → Prog ε σ α} {t : τ} {s : σ} (hx : Mirrors view lift x t y s)
    (hf : ∀ b u, exec x t = (.ok b, u) → Mirrors view lift (f b) u (g b) (view u)) :
    Mirrors view lift (x >>= f) t (y >>= g) s := by
  obtain ⟨h1, h2⟩ := hx
  have hy : exec y s = ((exec y s).1, (exec y s).2) := rfl
  rw [← h2] at hy
  cases hxt : exec x t with
  | mk r u =>
    rw [hxt] at h1 hy
    cases hr : (exec y s).1 with
    | ok b =>
      rw [hr] at h1 hy
      obtain rfl : r = .ok b := h1
      rw [Mirrors, exec_bind_ok hxt, exec_bind_ok hy]
      exact hf b u hxt
    | error e =>
      rw [hr] at h1 hy
      obtain rfl : r = .error (lift e) := h1
      rw [Mirrors, exec_bind_error hxt, exec_bind_error hy]
      exact ⟨rfl, rfl⟩

/-- One step of the larger program alone. -/
theorem mirrors_left {x : Prog ε' τ β} {f : β → Prog ε' τ α} {t u : τ} {s : σ}
    {b : β} (hx : exec x t = (.ok b, u)) (hf : Mirrors view lift (f b) u y s) :
    Mirrors view lift (x >>= f) t y s := by
  rw [Mirrors, exec_bind_ok hx]
  exact hf

/-- One step of the smaller program alone. -/
theorem mirrors_right {y : Prog ε σ β} {g : β → Prog ε σ α} {t : τ} {s v : σ}
    {b : β} (hy : exec y s = (.ok b, v)) (hg : Mirrors view lift x t (g b) v) :
    Mirrors view lift x t (y >>= g) s := by
  rw [Mirrors, exec_bind_ok hy]
  exact hg

theorem mirrors_tryCatch {f : ε' → Prog ε' τ α}
    {g : ε → Prog ε σ α} {t : τ} {s : σ} (hx : Mirrors view lift x t y s)
    (hf : ∀ e u, Mirrors view lift (f (lift e)) u (g e) (view u)) :
    Mirrors view lift (tryCatch x f) t (tryCatch y g) s := by
  obtain ⟨h1, h2⟩ := hx
  rw [Mirrors, exec_tryCatch, exec_tryCatch]
  cases hxt : exec x t with
  | mk r u =>
    cases hyt : exec y s with
    | mk r' u' =>
      rw [hxt, hyt] at h1 h2
      obtain rfl : view u = u' := h2
      cases r' with
      | ok b =>
        obtain rfl : r = .ok b := h1
        exact ⟨rfl, rfl⟩
      | error e =>
        obtain rfl : r = .error (lift e) := h1
        exact hf e u

theorem mirrors_forM {f : β → Prog ε' τ PUnit} {g : β → Prog ε σ PUnit}
    (hf : ∀ b u, Mirrors view lift (f b) u (g b) (view u)) (l : List β) (t : τ) :
    Mirrors view lift (l.forM f) t (l.forM g) (view t) := by
  induction l generalizing t with
  | nil => exact ⟨rfl, rfl⟩
  | cons b l ih => exact mirrors_bind (hf b t) fun _ u _ => ih u

end Mirrors

end Effects
