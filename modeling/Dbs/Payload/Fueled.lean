/-
  File:      Dbs/Payload/Fueled.lean
  Subject:   THE BOUND ON THE LOOPS OF THE READER IS NEVER REACHED: every turn takes a frame, and a
             frame some bytes.

  * `Whole` -- a result that is not a loop cut short; the checks of the values give no other;
  * `Runs` -- a program whose result is whole; `runs_bind`;
  * `runs_readManifests`, `runs_readChunks`, `runs_readBatches` -- with more fuel than bytes ahead;
  * `runs_readPayload`, `readThrough_whole` -- the payload.
-/
import Dbs.Payload.Phases

namespace Dbs.Payload

open Octets Effects
open Json (Value Text)

variable {α β : Type}

/-! ## 1. The checks -/

/-- A result other than a loop cut short. -/
def Whole {α : Type} (x : Except Failure α) : Prop := x ≠ .error .outOfFuel

theorem whole_ok (a : α) : Whole (.ok a) := nofun

theorem whole_bind {x : Except Failure α} {f : α → Except Failure β} (hx : Whole x)
    (hf : ∀ a, Whole (f a)) : Whole (x >>= f) := by
  cases x with
  | ok a => exact hf a
  | error e => exact fun h => hx (congrArg Except.error (Except.error.inj h))

theorem whole_guard {c : Prop} [Decidable c] {e : Failure} {f : β → Except Failure α}
    {x : Except Failure α} (he : e ≠ .outOfFuel) (hx : Whole x) :
    Whole (if c then throw e >>= f else x) := by
  split
  · exact fun h => he (Except.error.inj h)
  · exact hx

theorem whole_mapM {f : α → Except Failure β} (hf : ∀ a, Whole (f a)) (l : List α) :
    Whole (l.mapM f) := by
  induction l with
  | nil => exact whole_ok _
  | cons a l ih =>
    rw [List.mapM_cons]
    exact whole_bind (hf a) fun b => whole_bind ih fun bs => whole_ok _

theorem whole_foldlM {f : β → α → Except Failure β} (hf : ∀ b a, Whole (f b a)) (l : List α) (b : β) :
    Whole (l.foldlM f b) := by
  induction l generalizing b with
  | nil => exact whole_ok _
  | cons a l ih =>
    rw [List.foldlM_cons]
    exact whole_bind (hf b a) fun b => ih b

theorem whole_forIn {f : α → β → Except Failure (ForInStep β)} (hf : ∀ a b, Whole (f a b)) (l : List α)
    (b : β) : Whole (forIn l b f) := by
  induction l generalizing b with
  | nil => exact whole_ok _
  | cons a l ih =>
    rw [List.forIn_cons]
    refine whole_bind (hf a b) fun step => ?_
    cases step with
    | done b => exact whole_ok _
    | «yield» b => exact ih b

theorem whole_checkedHeader (value : Value) : Whole (checkedHeader value) := by
  unfold checkedHeader
  have hnames : Whole (do
      for name in ["created", "django_version"] do
        if (optionalText (member value name)).isNone then
          throw (Failure.malformed ("its header's " ++ name ++ " is not text"))
      return value) := by
    refine whole_bind (whole_forIn (fun name _ => ?_) _ _) fun _ => whole_ok _
    exact whole_guard nofun (whole_ok _)
  refine whole_guard nofun (whole_guard nofun ?_)
  split
  · exact hnames
  · exact whole_guard nofun hnames
  · exact nofun

theorem whole_textOf (value : Value) (name : String) : Whole (textOf value name) := by
  unfold textOf
  split
  · exact nofun
  · exact nofun

theorem whole_checkedEntry (value : Value) : Whole (checkedEntry value) := by
  unfold checkedEntry
  refine whole_guard nofun ?_
  split
  · split
    · exact nofun
    · exact whole_bind (whole_textOf _ _) fun _ => whole_bind (whole_textOf _ _) fun _ =>
        whole_bind (whole_textOf _ _) fun _ => whole_guard nofun (whole_ok _)
  · exact nofun

theorem whole_checkedRecord (order : List Text) (current : Nat) (record : Value) :
    Whole (checkedRecord order current record) := by
  unfold checkedRecord
  refine whole_guard nofun (whole_bind ?_ fun found => ?_)
  · unfold position
    split
    · exact nofun
    · exact nofun
    · exact nofun
  · cases found with
    | none => exact nofun
    | some found => exact whole_guard nofun (whole_guard nofun (whole_ok _))

theorem whole_checkedRecords (order : List Text) (value : Value) (current : Nat) :
    Whole (checkedRecords order value current) := by
  unfold checkedRecords
  split
  · exact nofun
  · exact whole_bind (whole_foldlM (whole_checkedRecord order) _ _) fun _ => whole_ok _

theorem whole_checkedTrailer (value : Value) : Whole (checkedTrailer value) := by
  unfold checkedTrailer
  exact whole_guard nofun (whole_guard nofun (whole_guard nofun (whole_guard nofun (whole_ok _))))

theorem whole_finishFile (D : Decoding) (index : Nat) (entry : FileEntry) (chunks : List Bytes)
    (value : Value) : Whole (finishFile D index entry chunks value) := by
  unfold finishFile
  refine whole_guard nofun ?_
  split
  · split
    · exact whole_guard nofun (whole_ok _)
    · exact nofun
  · split
    · exact nofun
    · exact whole_guard nofun (whole_ok _)

/-! ## 2. Programs -/

section Programs

variable {D : Decoding} {t u : PayloadReader Bytes}

/-- Run from here it is not cut short. -/
def Runs {σ : Type} (x : Prog Failure σ α) (t : σ) : Prop := Whole (exec x t).1

theorem runs_bind {σ : Type} {x : Prog Failure σ β} {f : β → Prog Failure σ α} {t : σ} (hx : Runs x t)
    (hf : ∀ b u, exec x t = (.ok b, u) → Runs (f b) u) : Runs (x >>= f) t := by
  unfold Runs
  cases hr : exec x t with
  | mk r u =>
    cases r with
    | ok b =>
      rw [exec_bind_ok hr]
      exact hf b u hr
    | error e =>
      rw [exec_bind_error hr]
      have : Whole (exec x t).1 := hx
      rw [hr] at this
      exact fun h => this (congrArg Except.error (Except.error.inj h))

theorem runs_throw {σ : Type} {e : Failure} (he : e ≠ .outOfFuel) (t : σ) :
    Runs (throw e : Prog Failure σ α) t := fun h => he (Except.error.inj h)

theorem runs_give {σ : Type} {x : Except Failure α} (hx : Whole x) (t : σ) :
    Runs (give x : Prog Failure σ α) t := by
  rw [Runs, exec_give]
  exact hx

theorem runs_takeBytes (size : Nat) (bytes : Bytes) : Runs (takeBytes size) bytes := by
  unfold takeBytes
  refine runs_bind nofun fun b v _ => ?_
  split
  · exact nofun
  · exact runs_throw (by nofun) v

theorem runs_nextBytes (bytes : Bytes) : Runs nextBytes bytes := by
  unfold nextBytes
  refine runs_bind nofun fun b v _ => ?_
  split
  · obtain ⟨head, hfields⟩ : ∃ head : Struct.Values framePrefix,
        Struct.fields framePrefix (b.take (Struct.size framePrefix)) = head := ⟨_, rfl⟩
    rw [hfields]
    obtain ⟨code, length, u⟩ : Nat × Nat × Unit := head
    cases hkind : FrameKind.ofCode code with
    | none =>
      simp only [hkind]
      exact runs_throw (by nofun) v
    | some kind =>
      simp only [hkind]
      split
      · exact nofun
      · exact runs_bind nofun fun _ w _ => runs_bind (runs_takeBytes length w) fun _ _ _ => nofun
  · split
    · exact runs_throw (by nofun) v
    · exact nofun

theorem runs_focus (t : PayloadReader Bytes) :
    Runs (focus PayloadReader.frames (fun t frames => { t with frames }) nextBytes) t := by
  have hfocus := exec_focus PayloadReader.frames (fun t frames => { t with frames }) nextBytes t
  rw [Runs, hfocus]
  exact runs_nextBytes t.frames

theorem runs_peek (t : PayloadReader Bytes) : Runs (peek nextBytes) t := by
  unfold peek
  refine runs_bind nofun fun v w _ => ?_
  cases v.pending with
  | some f => exact nofun
  | none =>
    refine runs_bind (runs_focus w) fun found x _ => ?_
    cases found with
    | none => exact runs_throw (by nofun) x
    | some f => exact nofun

theorem runs_takeFrame (t : PayloadReader Bytes) : Runs (takeFrame nextBytes) t :=
  runs_bind (runs_peek t) fun _ _ _ => nofun

theorem runs_expect (phase : Phase) (t : PayloadReader Bytes) : Runs (expect (R := Bytes) phase) t := by
  unfold expect
  refine runs_bind nofun fun v w _ => ?_
  show Runs (if v.phase ≠ phase then throw (.outOfOrder phase v.phase) else pure ()) w
  split
  · exact runs_throw (by nofun) w
  · exact nofun

theorem runs_parsed (value : Option Value) (what : String) (t : PayloadReader Bytes) :
    Runs (parsed (R := Bytes) value what) t := by
  cases value with
  | none => exact runs_throw (by nofun) t
  | some value => exact nofun

theorem runs_readItems (body : Bytes) (t : PayloadReader Bytes) : Runs (readItems D body) t := by
  refine runs_bind (runs_parsed _ _ t) fun value v _ => ?_
  cases items value with
  | none => exact runs_throw (by nofun) v
  | some values =>
    refine runs_bind (runs_give (whole_mapM whole_checkedEntry values) v) fun entries w _ =>
      runs_bind nofun fun _ x _ => runs_bind nofun fun y z _ => ?_
    split
    · exact runs_throw (by nofun) z
    · exact nofun

theorem length_bytes_append (f : Frame) (tail : Bytes) : tail.length < (f.bytes ++ tail).length := by
  rw [List.length_append, bytes_length]
  omega

theorem runs_readManifests {fuel : Nat} (ht : Ready t) (hfuel : (ahead t).length < fuel) :
    Runs (readManifests D nextBytes fuel) t := by
  induction fuel generalizing t with
  | zero => exact absurd hfuel (Nat.not_lt_zero _)
  | succ fuel ih =>
    refine runs_bind (runs_peek t) fun f v hpeek => ?_
    obtain ⟨tail, hf, hahead, rfl⟩ := (peek_ok ht).mp hpeek
    have hless := length_bytes_append f tail
    rw [← hahead] at hless
    split
    · refine runs_bind (runs_takeFrame _) fun g w htake => ?_
      obtain ⟨tail', hg, hahead', rfl⟩ := (takeFrame_ok (ready_some hf rfl)).mp htake
      obtain ⟨rfl, rfl⟩ := bytes_inj hf hg hahead'
      refine runs_bind (runs_readItems _ _) fun _ x hitems => ?_
      obtain ⟨entries, -, -, rfl⟩ := readItems_ok.mp hitems
      exact ih (ready_none rfl) (Nat.lt_of_lt_of_le hless (Nat.le_of_lt_succ hfuel))
    · exact nofun

theorem runs_readChunks {fuel index : Nat} {entry : FileEntry} {chunks : List Bytes} (ht : Ready t)
    (hfuel : (ahead t).length < fuel) : Runs (readChunks D nextBytes index entry fuel chunks) t := by
  induction fuel generalizing t chunks with
  | zero => exact absurd hfuel (Nat.not_lt_zero _)
  | succ fuel ih =>
    refine runs_bind (runs_takeFrame t) fun f v htake => ?_
    obtain ⟨tail, hf, hahead, rfl⟩ := (takeFrame_ok ht).mp htake
    have hless := length_bytes_append f tail
    rw [← hahead] at hless
    obtain ⟨kind, body⟩ := f
    cases kind with
    | fileData =>
      simp only
      split
      · exact runs_throw (by nofun) _
      · exact ih (ready_none rfl) (Nat.lt_of_lt_of_le hless (Nat.le_of_lt_succ hfuel))
    | fileEnd =>
      exact runs_bind (runs_parsed _ _ _) fun value w _ =>
        runs_give (whole_finishFile D index entry chunks value) w
    | header => exact runs_throw (by nofun) _
    | manifest => exact runs_throw (by nofun) _
    | records => exact runs_throw (by nofun) _
    | trailer => exact runs_throw (by nofun) _

theorem runs_readFilesFrom {fuel index : Nat} {entries : List FileEntry} (ht : Ready t)
    (hfuel : (ahead t).length < fuel) : Runs (readFilesFrom D nextBytes fuel index entries) t := by
  induction entries generalizing t index with
  | nil => exact nofun
  | cons entry entries ih =>
    refine runs_bind (runs_readChunks ht hfuel) fun read v hread => ?_
    obtain ⟨more, last, tail, -, -, hahead, hmoved⟩ := readChunks_sound ht hread
    refine runs_bind (ih hmoved.ready ?_) fun reads w _ => nofun
    rw [hmoved.ahead]
    rw [hahead, List.length_append] at hfuel
    omega

theorem runs_readBatches {fuel : Nat} (ht : Ready t) (hfuel : (ahead t).length < fuel) :
    Runs (readBatches D nextBytes fuel) t := by
  induction fuel generalizing t with
  | zero => exact absurd hfuel (Nat.not_lt_zero _)
  | succ fuel ih =>
    refine runs_bind (runs_peek t) fun f v hpeek => ?_
    obtain ⟨tail, hf, hahead, rfl⟩ := (peek_ok ht).mp hpeek
    have hless := length_bytes_append f tail
    rw [← hahead] at hless
    split
    · refine runs_bind (runs_takeFrame _) fun g w htake => ?_
      obtain ⟨tail', hg, hahead', rfl⟩ := (takeFrame_ok (ready_some hf rfl)).mp htake
      obtain ⟨rfl, rfl⟩ := bytes_inj hf hg hahead'
      refine runs_bind (runs_parsed _ _ _) fun value x hvalue => ?_
      obtain ⟨-, hsame⟩ := parsed_ok.mp hvalue
      subst hsame
      refine runs_bind nofun fun y z hget => ?_
      obtain ⟨hstate, hsame⟩ := Prod.mk.inj hget
      obtain rfl := Except.ok.inj hstate
      subst hsame
      refine runs_bind (runs_give (whole_checkedRecords _ value _) _) fun checked a hgive => ?_
      obtain ⟨-, hsame⟩ := give_ok.mp hgive
      subst hsame
      refine runs_bind nofun fun _ b hset => ?_
      obtain ⟨-, hsame⟩ := Prod.mk.inj hset
      subst hsame
      exact runs_bind (ih (ready_none rfl) (Nat.lt_of_lt_of_le hless (Nat.le_of_lt_succ hfuel)))
        fun _ _ _ => nofun
    · exact nofun

/-- **A payload is never cut short by the bound**: with more fuel than bytes it is read, or refused. -/
theorem runs_readPayload {fuel : Nat} {bytes : Bytes} (hfuel : bytes.length < fuel) :
    Runs (readPayload D nextBytes fuel) { frames := bytes } := by
  refine runs_bind ?_ fun _ v1 hheader => ?_
  · refine runs_bind (runs_expect _ _) fun _ w _ => runs_bind (runs_takeFrame w) fun f x _ => ?_
    simp only
    split
    · exact runs_throw (by nofun) x
    · exact runs_bind (runs_parsed _ _ x) fun value y _ =>
        runs_bind (runs_give (whole_checkedHeader value) y) fun _ _ _ => nofun
  obtain ⟨-, header, value, head, tail1, -, ha1, -, -, rfl⟩ :=
    (readHeader_ok (ready_none rfl)).mp hheader
  have hbytes : bytes = (Frame.mk .header header).bytes ++ tail1 := ha1
  have h1 : tail1.length < fuel := by
    rw [hbytes, List.length_append] at hfuel
    omega
  refine runs_bind ?_ fun _ v2 hmanifest => ?_
  · exact runs_bind (runs_expect _ _) fun _ w hexpect => by
      obtain ⟨-, rfl⟩ := expect_ok.mp hexpect
      exact runs_bind (runs_readManifests (ready_none rfl) h1) fun _ _ _ => nofun
  obtain ⟨_, _, tail2, -, -, ha2, -, hmoved2⟩ := readManifest_sound (ready_none rfl) hmanifest
  have hafter : tail1 = _ ++ tail2 := ha2
  have h2 : (ahead v2).length < fuel := by
    rw [hmoved2.ahead]
    rw [hafter, List.length_append] at h1
    omega
  refine runs_bind ?_ fun _ v3 hfiles => ?_
  · exact runs_bind (runs_expect _ _) fun _ w hexpect => by
      obtain ⟨-, rfl⟩ := expect_ok.mp hexpect
      exact runs_bind nofun fun _ x hget => by
        obtain ⟨-, rfl⟩ := Prod.mk.inj hget
        exact runs_bind (runs_readFilesFrom hmoved2.ready h2) fun _ _ _ => nofun
  obtain ⟨_, tail3, -, -, ha3, hmoved3⟩ := readFiles_sound hmoved2.ready hfiles
  have h3 : (ahead v3).length < fuel := by
    rw [hmoved3.ahead]
    rw [ha3, List.length_append] at h2
    omega
  refine runs_bind ?_ fun _ v4 hrecords => ?_
  · exact runs_bind (runs_expect _ _) fun _ w hexpect => by
      obtain ⟨-, rfl⟩ := expect_ok.mp hexpect
      exact runs_bind (runs_readBatches hmoved3.ready h3) fun _ _ _ => nofun
  refine runs_bind ?_ fun _ v5 _ => runs_bind ?_ fun _ _ _ => nofun
  · refine runs_bind (runs_expect _ _) fun _ w _ => runs_bind (runs_takeFrame w) fun f x _ => ?_
    simp only
    split
    · exact runs_throw (by nofun) x
    · exact runs_bind (runs_parsed _ _ x) fun value y _ =>
        runs_bind (runs_give (whole_checkedTrailer value) y) fun _ _ _ => nofun
  · refine runs_bind (runs_expect _ _) fun _ w _ => runs_bind (runs_focus w) fun found x _ => ?_
    cases found with
    | none => exact nofun
    | some f => exact runs_throw (by nofun) x

theorem runs_openBytes (bytes : Bytes) : Runs openBytes bytes := by
  refine runs_bind (runs_takeBytes _ _) fun magic v _ => ?_
  split
  · exact runs_throw (by nofun) v
  · exact nofun

end Programs

/-- **Reading through is never cut short.** -/
theorem readThrough_whole (D : Decoding) (pieces : List Bytes) : Whole (readThrough D pieces) := by
  rw [readThrough_eq]
  unfold readBytes
  cases hopen : exec openBytes pieces.flatten with
  | mk r rest =>
    cases r with
    | error e =>
      have := runs_openBytes pieces.flatten
      rw [Runs, hopen] at this
      exact fun h => this (congrArg Except.error (Except.error.inj h))
    | ok r =>
      have hbytes := openBytes_ok.mp hopen
      refine runs_readPayload ?_
      rw [hbytes, List.length_append]
      omega

end Dbs.Payload
