/-
  File:      Dbs/HostKeys.lean
  Subject:   CONFIRMING A HOST KEY (host_key_confirmation_service.py): a key that was requested waits
             in the cache until a user confirms or rejects it, and is then approved for its host.

  Any number of calls, one cache call of one of them at a time; a call may raise anywhere, and an
  entry goes whenever it likes. A call that its user may not make does nothing. `serial` tells the
  confirmations apart, as an id may be drawn again once its entry is gone.

  * `get`, `decided`, `approved` -- what the functions make of what they read;
  * `step` -- `request` and `_decide` call by call, among `approved` and `settle`;
  * `Kept` -- what a decision promises;
  * `Undisturbed` -- between the read and the write of a decision the other one is not written, and the
    confirmation is not settled;
  * `decision_stays` -- then every promise is kept; `rejection_lost` -- a confirm that overlaps a
    reject.
-/
import Dbs.Lib.Caching
import Dbs.Lib.Runs

namespace Dbs.HostKeys

open Caching Runs

/-! ## 1. Confirmations -/

abbrev Text := List Char

/-- What a user said. -/
inductive Decision
  | pending
  | confirmed
  | rejected
deriving DecidableEq

/-- `requestedAt` and `expiresAt` in microseconds. -/
structure HostKeyConfirmation where
  id : Text
  host : Text
  port : Nat
  keyType : Text
  line : Text
  fingerprint : Text
  status : Decision
  requestedAt : Nat
  expiresAt : Nat
deriving DecidableEq

inductive Failure
  /-- `HostKeyConfirmationMissing` -/
  | missing
  /-- `HostKeyConfirmationMismatch` -/
  | mismatch
  /-- `HostKeyRejected` -/
  | rejected
  /-- `HostKeyNotConfirmed` -/
  | notConfirmed
  /-- `HostKeyDecided` -/
  | decided

def confirmationLifetime : Nat := 10 * 60 * 1000000

def idBytes : Nat := 4

/-- `ID_PATTERN.fullmatch` -/
def isId (id : Text) : Bool :=
  id.length == idBytes * 2 && id.all fun c => ('0' ≤ c && c ≤ '9') || ('a' ≤ c && c ≤ 'f')

/-- What `fingerprint` found at a host. -/
structure Offered where
  keyType : Text
  line : Text
  fingerprint : Text

/-- An entry's value, and of which request it is. -/
structure Held where
  serial : Nat
  confirmation : HostKeyConfirmation
deriving DecidableEq

/-- `_held`, of one id; what has expired is not held. -/
def held (cache : Cache Text Held) (now : Nat) (id : Text) : Option Held :=
  ((cache.entries id).map (·.value)).filter fun h => now < h.confirmation.expiresAt

def get (cache : Cache Text Held) (now : Nat) (id : Text) : Except Failure Held :=
  match if isId id then held cache now id else none with
  | some h => .ok h
  | none => .error .missing

/-- What `_decide` stores. -/
def Held.decided (h : Held) (status : Decision) : Except Failure Held :=
  if h.confirmation.status ≠ .pending then .error .decided
  else .ok { h with confirmation := { h.confirmation with status } }

def Held.approved (h : Held) (host : Text) (port : Nat) : Except Failure Text :=
  if (h.confirmation.host, h.confirmation.port) ≠ (host, port) then .error .mismatch
  else if h.confirmation.status = .rejected then .error .rejected
  else if h.confirmation.status ≠ .confirmed then .error .notConfirmed
  else .ok h.confirmation.line

/-! ## 2. Calls -/

/-- Where a call is, in front of its next cache call or of its end. -/
inductive Call
  /-- `request`, in front of `_store`. -/
  | storing (confirmation : HostKeyConfirmation)
  /-- `request`, in front of reading the index, its entries, and of writing it. -/
  | listing (id : Text)
  | loading (id : Text) (ids : List Text)
  | indexing (ids : List Text)
  /-- `_decide`, in front of `_store`. -/
  | deciding (found : Held) (status : Decision)
  /-- `_decide`, in front of its return. -/
  | returning (decided : Held)

/-- A line that `approved` returned. -/
structure Approval where
  serial : Nat
  host : Text
  port : Nat
  line : Text
deriving DecidableEq

/-- `requests`: the confirmations as they were requested, by their serials; `written`, `returned`: the
    decisions that were written, and those of calls that returned. -/
structure World where
  cache : Cache Text Held
  index : Option (List Text)
  now : Nat
  calls : List Call
  requests : List HostKeyConfirmation
  written : List Held
  returned : List Held
  approvals : List Approval
  settled : List Nat

def World.start : World := ⟨.empty, none, 0, [], [], [], [], [], []⟩

inductive Action
  /-- `request` draws an id. -/
  | request (id host : Text) (port : Nat) (offered : Offered)
  /-- `_decide` reads. -/
  | decide (id : Text) (status : Decision)
  /-- The next cache call of a call, or its return. -/
  | next (i : Nat)
  /-- A call raises. -/
  | raise (i : Nat)
  | approve (id host : Text) (port : Nat)
  | settle (id : Text)
  | expire (id : Text)
  | expireIndex
  | tick (microseconds : Nat)

namespace World

variable (w : World) (i : Nat)

/-- What `request` makes of what a host offers. -/
def confirmation (id host : Text) (port : Nat) (offered : Offered) : HostKeyConfirmation :=
  ⟨id, host, port, offered.keyType, offered.line, offered.fingerprint, .pending, w.now,
    w.now + confirmationLifetime⟩

def stored (c : HostKeyConfirmation) : World :=
  { w with
    cache := w.cache.set c.id ⟨w.requests.length, c⟩
    calls := w.calls.set i (.listing c.id)
    requests := w.requests ++ [c] }

def wrote (h : Held) : World :=
  { w with
    cache := w.cache.set h.confirmation.id h
    calls := w.calls.set i (.returning h)
    written := h :: w.written }

/-- `_live_ids`, of the ids in the index. -/
def liveIds (ids : List Text) : List Text :=
  (ids.filterMap fun id => held w.cache w.now id).map (·.confirmation.id)

def ended : World := { w with calls := w.calls.eraseIdx i }

def nextOf : Call → World
  | .storing c => w.stored i c
  | .listing id => { w with calls := w.calls.set i (.loading id (w.index.getD [])) }
  | .loading id ids => { w with calls := w.calls.set i (.indexing (w.liveIds ids ++ [id])) }
  | .indexing ids => { w.ended i with index := some ids }
  | .deciding found status =>
    match found.decided status with
    | .ok h => w.wrote i h
    | .error _ => w.ended i
  | .returning h => { w.ended i with returned := h :: w.returned }

/-- `settle`; the confirmations that had the id are settled. -/
def settleAll (id : Text) : World :=
  { w with
    cache := w.cache.remove id
    settled := (List.range w.requests.length).filter (fun s => (w.requests[s]?.map (·.id)) = some id) ++
      w.settled }

end World

/-- One statement of one call. -/
def step (w : World) : Action → Option World
  | .request id host port offered =>
    if isId id ∧ w.cache.entries id = none then
      some { w with calls := .storing (w.confirmation id host port offered) :: w.calls }
    else none
  | .decide id status =>
    if status = .pending then none
    else match get w.cache w.now id with
    | .ok found => some { w with calls := .deciding found status :: w.calls }
    | .error _ => some w
  | .next i => (w.calls[i]?).map (w.nextOf i)
  | .raise i => (w.calls[i]?).map fun _ => w.ended i
  | .approve id host port =>
    match get w.cache w.now id with
    | .ok h =>
      match h.approved host port with
      | .ok line => some { w with approvals := ⟨h.serial, host, port, line⟩ :: w.approvals }
      | .error _ => some w
    | .error _ => some w
  | .settle id => some (w.settleAll id)
  | .expire id => some { w with cache := w.cache.remove id }
  | .expireIndex => some { w with index := none }
  | .tick microseconds => some { w with now := w.now + microseconds }

/-! ## 3. What a decision promises -/

/-- The confirmation that an approval names was confirmed, for this host and port. -/
def World.Confirmed (w : World) (a : Approval) : Prop :=
  ∃ h ∈ w.written, h.serial = a.serial ∧ h.confirmation.status = .confirmed ∧
    h.confirmation.host = a.host ∧ h.confirmation.port = a.port ∧ h.confirmation.line = a.line

/-- `decided`: what a call that returned decided is what is found, and no other decision was written;
    `approved`: only what was confirmed for the host and the port, and not what was rejected;
    `settled`: what was settled is not found. -/
structure World.Kept (w : World) : Prop where
  decided : ∀ d ∈ w.returned,
    (∀ id h, get w.cache w.now id = .ok h → h.serial = d.serial → h = d) ∧
      ∀ h ∈ w.written, h.serial = d.serial → h = d
  approved : ∀ a ∈ w.approvals,
    w.Confirmed a ∧ ∀ d ∈ w.returned, d.serial = a.serial → d.confirmation.status ≠ .rejected
  settled : ∀ s ∈ w.settled, ∀ id h, get w.cache w.now id = .ok h → h.serial ≠ s

/-- The decision that a call writes next. -/
def Call.decides : Call → Option Held
  | .deciding found status => (found.decided status).toOption
  | _ => none

/-- No decision is written of a confirmation of which the other one was written, or that was settled. -/
def Undisturbed (w : World) : Action → Prop
  | .next i => ∀ call ∈ w.calls[i]?, ∀ d ∈ call.decides,
      (∀ h ∈ w.written, h.serial = d.serial → h = d) ∧ d.serial ∉ w.settled
  | _ => True

instance (w : World) : ∀ a, Decidable (Undisturbed w a)
  | .next i => inferInstanceAs (Decidable (∀ call ∈ w.calls[i]?, ∀ d ∈ call.decides,
      (∀ h ∈ w.written, h.serial = d.serial → h = d) ∧ d.serial ∉ w.settled))
  | .request .. | .decide .. | .raise .. | .approve .. | .settle .. | .expire .. | .expireIndex |
    .tick .. =>
    inferInstanceAs (Decidable True)

/-! ## 4. What every step keeps -/

/-- It is the confirmation that was requested, decided or not. -/
def World.Of (w : World) (h : Held) : Prop :=
  ∃ r, w.requests[h.serial]? = some r ∧ h.confirmation = { r with status := h.confirmation.status }

/-- An entry is pending and no decision of it was written, or it is the decision that was. -/
structure World.Stands (w : World) (id : Text) (h : Held) : Prop where
  of : w.Of h
  id : h.confirmation.id = id
  status : (h.confirmation.status = .pending ∧ ∀ d ∈ w.written, d.serial ≠ h.serial) ∨ h ∈ w.written
  settled : h.serial ∉ w.settled

def World.CallFits (w : World) : Call → Prop
  | .storing c => c.status = .pending
  | .deciding found _ => w.Of found
  | .returning h => h ∈ w.written
  | _ => True

/-- The invariant. -/
structure Sound (w : World) : Prop where
  entries : ∀ id e, w.cache.entries id = some e → w.Stands id e.value
  calls : ∀ call ∈ w.calls, w.CallFits call
  once : ∀ h ∈ w.written, ∀ d ∈ w.written, h.serial = d.serial → h = d
  written : ∀ h ∈ w.written, w.Of h
  returned : ∀ h ∈ w.returned, h ∈ w.written
  approvals : ∀ a ∈ w.approvals, w.Confirmed a
  settled : ∀ s ∈ w.settled, s < w.requests.length

section Steps

variable {w : World} {id host line : Text} {port i : Nat} {h : Held} {c : HostKeyConfirmation}
    {call : Call}

theorem sound_start : Sound World.start where
  entries := nofun
  calls := nofun
  once := nofun
  written := nofun
  returned := nofun
  approvals := nofun
  settled := nofun

theorem World.Of.lt (hof : w.Of h) : h.serial < w.requests.length := by
  obtain ⟨r, hr, -⟩ := hof
  exact (List.getElem?_eq_some_iff.mp hr).1

theorem World.Of.append (hof : w.Of h) {w' : World} (hr : w'.requests = w.requests ++ [c]) :
    w'.Of h := by
  obtain ⟨r, hr', hsame⟩ := hof
  refine ⟨r, ?_, hsame⟩
  rw [hr, List.getElem?_append_left (List.getElem?_eq_some_iff.mp hr').1, hr']

/-- Two of one request have one id. -/
theorem World.Of.id_eq {d : Held} (hof : w.Of h) (hd : w.Of d) (hs : h.serial = d.serial) :
    h.confirmation.id = d.confirmation.id := by
  obtain ⟨r, hr, hsame⟩ := hof
  obtain ⟨q, hq, hsame'⟩ := hd
  rw [hs] at hr
  obtain rfl := Option.some.inj (hr.symm.trans hq)
  rw [hsame, hsame']

theorem held_eq_some (hheld : held w.cache w.now id = some h) :
    ∃ e, w.cache.entries id = some e ∧ e.value = h := by
  obtain ⟨hmap, -⟩ := Option.filter_eq_some_iff.mp hheld
  exact Option.map_eq_some_iff.mp hmap

theorem get_eq_ok (hget : get w.cache w.now id = .ok h) : ∃ e, w.cache.entries id = some e ∧
    e.value = h := by
  unfold get at hget
  by_cases hid : isId id = true
  · rw [if_pos hid] at hget
    cases hheld : held w.cache w.now id with
    | none => rw [hheld] at hget; cases hget
    | some found =>
      rw [hheld] at hget
      cases hget
      exact held_eq_some hheld
  · rw [if_neg hid] at hget
    cases hget

theorem decided_eq_ok {status : Decision} {d : Held} (hd : h.decided status = .ok d) :
    d = { h with confirmation := { h.confirmation with status } } := by
  unfold Held.decided at hd
  split at hd
  · cases hd
  · exact (Except.ok.inj hd).symm

theorem approved_eq_ok (ha : h.approved host port = .ok line) :
    h.confirmation.host = host ∧ h.confirmation.port = port ∧ h.confirmation.status = .confirmed ∧
      h.confirmation.line = line := by
  unfold Held.approved at ha
  split at ha
  · cases ha
  · rename_i hsame
    split at ha
    · cases ha
    · split at ha
      · cases ha
      · rename_i hconfirmed
        obtain ⟨rfl, rfl⟩ := Prod.mk.inj (not_not.mp hsame)
        exact ⟨rfl, rfl, not_not.mp hconfirmed, Except.ok.inj ha⟩

section

variable (hs : Sound w)

include hs

/-- Where only calls, the index and the clock change. -/
theorem Sound.of_calls {index : Option (List Text)} {now : Nat} {calls : List Call}
    (hc : ∀ call ∈ calls, call ∈ w.calls ∨ w.CallFits call) :
    Sound { w with index, now, calls } where
  __ := hs
  entries := fun id e he =>
    ⟨(hs.entries id e he).of, (hs.entries id e he).id, (hs.entries id e he).status,
    (hs.entries id e he).settled⟩
  calls := fun call hcall => (hc call hcall).elim (hs.calls call) fun hfits => hfits

theorem Sound.ended (i : Nat) : Sound (w.ended i) :=
  hs.of_calls fun _ hcall => .inl (List.mem_of_mem_eraseIdx hcall)

theorem Sound.moved (i : Nat) {index : Option (List Text)} {now : Nat}
    (hfits : w.CallFits call) : Sound { w with index, now, calls := w.calls.set i call } := by
  refine hs.of_calls fun other hother => ?_
  rcases List.mem_or_eq_of_mem_set hother with hmem | rfl
  · exact .inl hmem
  · exact .inr hfits

theorem Sound.removed (id : Text) : Sound { w with cache := w.cache.remove id } where
  __ := hs
  entries := fun other e he =>
    have hstands := hs.entries other e (Cache.entries_of_remove he)
    { hstands with }

/-- A new confirmation is of a request of its own. -/
theorem Sound.stored (i : Nat) (hpending : c.status = .pending) : Sound (w.stored i c) := by
  have hfresh : ∀ {h : Held}, w.Of h → h.serial ≠ w.requests.length := fun hof => Nat.ne_of_lt hof.lt
  constructor
  · intro id e he
    by_cases hid : id = c.id
    · rw [hid, World.stored, Cache.set_self] at he
      cases he
      refine ⟨⟨c, List.getElem?_concat_length, rfl⟩, hid.symm,
        .inl ⟨hpending, fun d hd => hfresh (hs.written d hd)⟩, fun hsettled => ?_⟩
      exact absurd (hs.settled _ hsettled) (Nat.lt_irrefl _)
    · rw [World.stored, Cache.set_of_ne hid] at he
      have hstands := hs.entries id e he
      exact ⟨hstands.of.append rfl, hstands.id, hstands.status, hstands.settled⟩
  · intro call hcall
    rcases List.mem_or_eq_of_mem_set hcall with hmem | rfl
    · have hfits := hs.calls call hmem
      cases call with
      | deciding found status => exact World.Of.append hfits rfl
      | _ => exact hfits
    · trivial
  · exact hs.once
  · exact fun h hh => (hs.written h hh).append rfl
  · exact hs.returned
  · exact hs.approvals
  · intro s hsettled
    rw [World.stored, List.length_append]
    exact Nat.lt_succ_of_lt (hs.settled s hsettled)

/-- The decision that is written is the only one. -/
theorem Sound.wrote (i : Nat) (hof : w.Of h)
    (honly : ∀ d ∈ w.written, d.serial = h.serial → d = h) (hunsettled : h.serial ∉ w.settled) :
    Sound (w.wrote i h) := by
  constructor
  · intro id e he
    by_cases hid : id = h.confirmation.id
    · rw [hid, World.wrote, Cache.set_self] at he
      cases he
      exact ⟨hof, hid.symm, .inr List.mem_cons_self, hunsettled⟩
    · rw [World.wrote, Cache.set_of_ne hid] at he
      have hstands := hs.entries id e he
      have hother : e.value.serial ≠ h.serial := fun hserial =>
        hid (hstands.id.symm.trans (hstands.of.id_eq hof hserial))
      refine ⟨hstands.of, hstands.id, hstands.status.imp (fun hpending => ⟨hpending.1, ?_⟩)
        (List.mem_cons_of_mem h), hstands.settled⟩
      intro d hd
      rcases List.mem_cons.mp hd with rfl | hd
      · exact hother.symm
      · exact hpending.2 d hd
  · intro call hcall
    rcases List.mem_or_eq_of_mem_set hcall with hmem | rfl
    · have hfits := hs.calls call hmem
      cases call with
      | returning d => exact List.mem_cons_of_mem h hfits
      | _ => exact hfits
    · exact List.mem_cons_self
  · intro d hd d' hd' hserial
    rcases List.mem_cons.mp hd with rfl | hbefore
    · rcases List.mem_cons.mp hd' with rfl | hbefore
      · rfl
      · exact (honly d' hbefore hserial.symm).symm
    · rcases List.mem_cons.mp hd' with rfl | hbefore'
      · exact honly d hbefore hserial
      · exact hs.once d hbefore d' hbefore' hserial
  · intro d hd
    rcases List.mem_cons.mp hd with rfl | hd
    · exact hof
    · exact hs.written d hd
  · exact fun d hd => List.mem_cons_of_mem h (hs.returned d hd)
  · intro a ha
    obtain ⟨d, hd, hconfirmed⟩ := hs.approvals a ha
    exact ⟨d, List.mem_cons_of_mem h hd, hconfirmed⟩
  · exact hs.settled

theorem Sound.settleAll (id : Text) : Sound (w.settleAll id) := by
  constructor
  · intro other e he
    have hstands := hs.entries other e (Cache.entries_of_remove he)
    refine ⟨hstands.of, hstands.id, hstands.status, fun hmem => ?_⟩
    rcases List.mem_append.mp hmem with hmem | hmem
    · -- its id would be the one whose entry has gone
      obtain ⟨r, hr, hsame⟩ := hstands.of
      have hid : some r.id = some id := by
        have h := of_decide_eq_true (List.mem_filter.mp hmem).2
        rwa [hr, Option.map_some] at h
      have hkey : other = id := by
        rw [← hstands.id, hsame]
        exact Option.some.inj hid
      rw [hkey, World.settleAll, Cache.remove_self] at he
      cases he
    · exact hstands.settled hmem
  · exact hs.calls
  · exact hs.once
  · exact hs.written
  · exact hs.returned
  · exact hs.approvals
  · intro s hmem
    rcases List.mem_append.mp hmem with hmem | hmem
    · exact List.mem_range.mp (List.mem_filter.mp hmem).1
    · exact hs.settled s hmem

/-- A call returns. -/
theorem Sound.gave (i : Nat) (hmem : h ∈ w.written) :
    Sound { w.ended i with returned := h :: w.returned } where
  __ := hs
  entries := fun id e he =>
    have hstands := hs.entries id e he
    { hstands with }
  calls := (hs.ended i).calls
  returned := fun d hd => (List.mem_cons.mp hd).elim (fun heq => heq ▸ hmem) (hs.returned d)

/-- What a call does next. -/
theorem Sound.next (hcall : w.calls[i]? = some call) (hin : Undisturbed w (.next i)) :
    Sound (w.nextOf i call) := by
  have hfits := hs.calls call (List.mem_of_getElem? hcall)
  cases call with
  | storing c => exact hs.stored i hfits
  | listing _ | loading _ _ => exact hs.moved i trivial
  | indexing ids => exact hs.of_calls fun _ hmem => .inl (List.mem_of_mem_eraseIdx hmem)
  | deciding found status =>
    show Sound (match found.decided status with
      | .ok h => w.wrote i h
      | .error _ => w.ended i)
    cases hd : found.decided status with
    | error e => exact hs.ended i
    | ok d =>
      obtain ⟨honly, hunsettled⟩ := hin _ hcall d (by rw [Call.decides, hd]; rfl)
      obtain rfl := decided_eq_ok hd
      obtain ⟨r, hr, hsame⟩ := hfits
      exact hs.wrote i ⟨r, hr, by rw [hsame]⟩ honly hunsettled
  | returning d => exact hs.gave i hfits

/-- An approval is of a decision that was written. -/
theorem Sound.approve (hget : get w.cache w.now id = .ok h) (ha : h.approved host port = .ok line) :
    Sound { w with approvals := ⟨h.serial, host, port, line⟩ :: w.approvals } := by
  obtain ⟨e, he, rfl⟩ := get_eq_ok hget
  obtain ⟨hhost, hport, hconfirmed, hline⟩ := approved_eq_ok ha
  have hwritten : e.value ∈ w.written :=
    (hs.entries id e he).status.resolve_left fun hpending => by
      rw [hconfirmed] at hpending
      cases hpending.1
  refine ⟨fun id e he => ?_, hs.calls, hs.once, hs.written, hs.returned, fun a hmem => ?_, hs.settled⟩
  · have hstands := hs.entries id e he
    exact { hstands with }
  · rcases List.mem_cons.mp hmem with rfl | hmem
    · exact ⟨e.value, hwritten, rfl, hconfirmed, hhost, hport, hline⟩
    · exact hs.approvals a hmem

/-- **Every undisturbed step keeps it.** -/
theorem step_sound {a : Action} {w' : World} (hin : Undisturbed w a)
    (hstep : step w a = some w') : Sound w' := by
  cases a with
  | request id host port offered =>
    obtain ⟨-, ⟨⟩⟩ := Option.ite_none_right_eq_some.mp hstep
    refine hs.of_calls fun call hcall => ?_
    rcases List.mem_cons.mp hcall with rfl | hcall
    · exact .inr rfl
    · exact .inl hcall
  | decide id status =>
    obtain ⟨-, hw⟩ := Option.ite_none_left_eq_some.mp hstep
    cases hget : get w.cache w.now id with
    | error e =>
      rw [hget] at hw
      exact Option.some.inj hw ▸ hs
    | ok found =>
      rw [hget] at hw
      cases hw
      obtain ⟨e, he, rfl⟩ := get_eq_ok hget
      refine hs.of_calls fun call hcall => ?_
      rcases List.mem_cons.mp hcall with rfl | hcall
      · exact .inr (hs.entries id e he).of
      · exact .inl hcall
  | next i =>
    obtain ⟨call, hcall, rfl⟩ := Option.map_eq_some_iff.mp hstep
    exact hs.next hcall hin
  | raise i =>
    obtain ⟨call, -, rfl⟩ := Option.map_eq_some_iff.mp hstep
    exact hs.ended i
  | approve id host port =>
    cases hget : get w.cache w.now id with
    | error e =>
      rw [step, hget] at hstep
      exact Option.some.inj hstep ▸ hs
    | ok h =>
      cases ha : h.approved host port with
      | error e =>
        rw [step, hget] at hstep
        simp only [ha] at hstep
        exact Option.some.inj hstep ▸ hs
      | ok line =>
        rw [step, hget] at hstep
        simp only [ha] at hstep
        cases hstep
        exact hs.approve hget ha
  | settle id =>
    cases hstep
    exact hs.settleAll id
  | expire id =>
    cases hstep
    exact hs.removed id
  | expireIndex | tick _ =>
    cases hstep
    exact hs.of_calls fun _ hcall => .inl hcall

/-- What is found of a confirmation that was decided is the decision. -/
theorem Sound.kept : w.Kept where
  decided := fun d hd => by
    have hwritten := hs.returned d hd
    refine ⟨fun id h hget hserial => ?_, fun h hh hserial => hs.once h hh d hwritten hserial⟩
    obtain ⟨e, he, rfl⟩ := get_eq_ok hget
    rcases (hs.entries id e he).status with ⟨-, hnone⟩ | hmem
    · exact absurd hserial.symm (hnone d hwritten)
    · exact hs.once _ hmem d hwritten hserial
  approved := fun a ha => by
    obtain ⟨h, hh, hserial, hconfirmed, hfor⟩ := hs.approvals a ha
    refine ⟨⟨h, hh, hserial, hconfirmed, hfor⟩, fun d hd hsame hrejected => ?_⟩
    obtain rfl := hs.once d (hs.returned d hd) h hh (hsame.trans hserial.symm)
    rw [hconfirmed] at hrejected
    cases hrejected
  settled := fun s hsettled id h hget hserial => by
    obtain ⟨e, he, rfl⟩ := get_eq_ok hget
    exact (hs.entries id e he).settled (hserial ▸ hsettled)

end

end Steps

/-! ## 5. Runs -/

/-- **A decision stays** in every run in which no decision is written behind another one, or behind the
    settlement, of its confirmation. -/
theorem decision_stays {as : List Action} {w : World} (hrun : run step World.start as = some w)
    (hin : Along step Undisturbed World.start as) : w.Kept :=
  (run_invariant_along (fun _ _ _ hstep hin hs => step_sound hs hin hstep) hrun hin sound_start).kept

section Examples

def offered : Offered := ⟨"ssh-ed25519".toList, "ssh-ed25519 AAAA".toList, "SHA256:x".toList⟩

def requested : List Action :=
  [.request "a1b2c3d4".toList "db.example.com".toList 22 offered, .next 0, .next 0, .next 0, .next 0]

/-- One user rejects the key, and it stays rejected for another. -/
def rejectedAlone : List Action :=
  requested ++ [.decide "a1b2c3d4".toList .rejected, .next 0, .next 0,
    .decide "a1b2c3d4".toList .confirmed,
    .next 0, .approve "a1b2c3d4".toList "db.example.com".toList 22]

theorem decision_stays_rejectedAlone : ∃ w, run step World.start rejectedAlone = some w ∧
    w.returned.length = 1 ∧ w.approvals = [] ∧ w.Kept := by
  have hrun : (run step World.start rejectedAlone).map (fun w => (w.returned.length, w.approvals)) =
      some (1, []) := by decide +kernel
  obtain ⟨w, hw, heq⟩ := Option.map_eq_some_iff.mp hrun
  obtain ⟨hreturned, happrovals⟩ := Prod.mk.inj heq
  exact ⟨w, hw, hreturned, happrovals, decision_stays hw (by decide +kernel)⟩

/-- A confirm and a reject both read; the reject writes and returns, then the confirm writes. -/
def rejectedBetween : List Action :=
  requested ++ [.decide "a1b2c3d4".toList .confirmed, .decide "a1b2c3d4".toList .rejected, .next 0,
    .next 0,
    .next 0, .approve "a1b2c3d4".toList "db.example.com".toList 22]

/-- **A key is approved behind its rejection**, which returned normally. -/
theorem rejection_lost : ∃ w, run step World.start rejectedBetween = some w ∧ ¬ w.Kept := by
  have hrun : (run step World.start rejectedBetween).map (fun w =>
      (w.returned.map fun d => (d.serial, d.confirmation.status), w.approvals.map (·.serial))) =
      some ([(0, .rejected)], [0]) := by decide +kernel
  obtain ⟨w, hw, heq⟩ := Option.map_eq_some_iff.mp hrun
  obtain ⟨hreturned, happrovals⟩ := Prod.mk.inj heq
  refine ⟨w, hw, fun hkept => ?_⟩
  obtain ⟨d, hd, hrejected⟩ := List.mem_map.mp (hreturned ▸ List.mem_cons_self)
  obtain ⟨a, ha, hserial⟩ := List.mem_map.mp (happrovals ▸ List.mem_cons_self)
  obtain ⟨hzero, hstatus⟩ := Prod.mk.inj hrejected
  exact (hkept.approved a ha).2 d hd (hzero.trans hserial.symm) hstatus

end Examples

end Dbs.HostKeys
