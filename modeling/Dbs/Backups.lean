/-
  File:      Dbs/Backups.lean
  Subject:   A BACKUP AS A WHOLE: produced (engine/backup.py), encoded into a container, and read
             again as a restore reads it (engine/restore.py, `open_reader`, `open_stream`).

  * `openReader`, `readPieces` -- the reader, and the pieces of the payload; `restored` -- what they
    say;
  * `Taken` -- a production that returned, its frames encoded, and the container they were written to;
  * `written_recovered` -- after any burst within the tolerance it is read back whole.
-/
import Dbs.Container.Damage
import Dbs.Encoding
import Dbs.Payload.Carried

namespace Dbs.Backups

open Octets Effects Zlib Payload
open Encoding (Encoded Inflater decode flagsOf payloadCompressed decode_encoded)

/-! ## 1. What is read of a container -/

section Reading

variable (P : Primitives) (Z : Library) (D : Decoding)

/-- `KNOWN_FLAGS`. -/
def knownFlags : Nat := payloadCompressed

/-- `open_reader`: nothing where a newer version has set flags. -/
def openReader (source passphrase : Bytes) : Option StreamReader :=
  match StreamReader.create P source (some passphrase) with
  | .error _ => none
  | .ok r =>
    let unknown := r.header.flags ^^^ (r.header.flags &&& knownFlags)
    if unknown ≠ 0 then none else some r

/-- The pieces that `decoding` yields, with the report: nothing where reading or inflating raises. -/
def readPieces (r : StreamReader) (checkSpares : Bool) (fuel : Nat) :
    Option (StreamRepairReport × List Bytes) :=
  match exec (r.chunks P checkSpares) (r.start []) with
  | (.error _, _) => none
  | (.ok _, t) =>
    match exec (decode Z r.header.flags fuel t.out) (.new Z) with
    | (.error _, _) => none
    | (.ok _, j) => some (t.report, j.pieces)

/-- What a restore reads: `open_stream`, and the payload through. -/
def restored (source passphrase : Bytes) (fuel : Nat) : Option Payload.Contents := do
  let r ← openReader P source passphrase
  let (_, pieces) ← readPieces P Z r false fuel
  (readThrough D pieces).toOption

end Reading

/-! ## 2. A backup that was taken -/

section Taken

variable {P : Primitives} {Z : Library} {During : Z.Member → (plain taken made : Bytes) → Prop}
  {D : Decoding} {ρ κ : Type} [LinearOrder κ] {b : Backup ρ κ}

/-- **A backup was taken**: the production returned, its frames were encoded, and the container
    closed. -/
structure Taken (P : Primitives) (Z : Library) (D : Decoding) (b : Backup ρ κ) (stats : Stats)
    (t : Stream) (passphrase : Bytes) (compress : Bool) (items : List Bytes) (w : StreamWriter)
    (container : Bytes) : Prop where
  produced : exec (produce D.hexdigest b) {} = (.ok stats, t)
  encoded : ∃ segmentBytes workers, 0 < segmentBytes ∧
    Encoded Z segmentBytes workers t.emitted compress items
  created : ∃ drawn params layout workers,
    StreamWriter.create P never drawn passphrase params layout workers (flagsOf compress) = .ok w
  written : written P w items = some container

variable {stats : Stats} {t : Stream} {passphrase : Bytes} {compress : Bool} {items : List Bytes}
  {w : StreamWriter} {container : Bytes}

namespace Taken

section

variable (h : Taken P Z D b stats t passphrase compress items w container)

include h

theorem flags : w.header.flags = flagsOf compress := by
  obtain ⟨drawn, params, layout, workers, hcreate⟩ := h.created
  obtain ⟨-, -, hheader⟩ := StreamWriter.create_ok hcreate
  exact hheader.flags

theorem bytes_eq :
    (contentsOf w items).blocks ≤ maxBlocks ∧ container = (contentsOf w items).bytes P := by
  obtain ⟨drawn, params, layout, workers, hcreate⟩ := h.created
  obtain ⟨hb, hbytes⟩ := written_ok hcreate h.written
  exact ⟨hb, hbytes⟩

theorem keyed (hP : P.OpensWhatItSeals) : (contentsOf w items).Keyed P passphrase := by
  obtain ⟨drawn, params, layout, workers, hcreate⟩ := h.created
  exact keyed_of_create hP hcreate items

/-- The payload decodes to the frames of the production. -/
theorem decoded (hZ : Lawful Z During)
    {chunks : List Bytes} (hchunks : chunks.flatten = (contentsOf w items).payload) :
    ∃ bound, ∀ fuel, bound < fuel → ∃ j,
      exec (decode Z w.header.flags fuel chunks) (.new Z) = (.ok (), j) ∧
        j.pieces.flatten = t.emitted.flatten := by
  obtain ⟨segmentBytes, workers, hsegment, hencoded⟩ := h.encoded
  rw [h.flags]
  exact decode_encoded hZ hsegment hencoded hchunks

/-- A reader with the writer's header that comes to the end gives the frames of the production. -/
theorem readPieces_eq
    (hZ : Lawful Z During) {r : StreamReader} (hheader : r.header = w.header) {checkSpares : Bool}
    {u : Pass (List Bytes)} (hread : exec (r.chunks P checkSpares) (r.start []) = (.ok (), u))
    (hout : u.out.flatten = (contentsOf w items).payload) :
    ∃ bound, ∀ fuel, bound < fuel → ∃ pieces,
      readPieces P Z r checkSpares fuel = some (u.report, pieces) ∧
        pieces.flatten = t.emitted.flatten := by
  obtain ⟨bound, hdecode⟩ := h.decoded hZ hout
  refine ⟨bound, fun fuel hfuel => ?_⟩
  obtain ⟨j, hrun, hj⟩ := hdecode fuel hfuel
  refine ⟨j.pieces, ?_, hj⟩
  rw [readPieces, hread, hheader]
  simp only
  rw [hrun]

theorem openReader_eq
    {source passphrase' : Bytes} {r : StreamReader}
    (hcreate : StreamReader.create P source (some passphrase') = .ok r)
    (hheader : r.header = w.header) : openReader P source passphrase' = some r := by
  have hknown : flagsOf compress ^^^ (flagsOf compress &&& knownFlags) = 0 := by
    cases compress <;> rfl
  rw [openReader, hcreate]
  simp only
  rw [hheader, h.flags]
  exact if_neg (not_not.mpr hknown)

end

end Taken

/-! ## 3. What can be read of it -/

/-- **After any burst that its layout promises to survive a backup is read back whole.** -/
theorem written_recovered (hP : P.OpensWhatItSeals) (hZ : Lawful Z During) (hlegible : Legible D b)
    (hplain : PlainKeys b) (h : Taken P Z D b stats t passphrase compress items w container)
    {source : Bytes} {start length : Nat} (hburst : Burst container source start length)
    (hdetected : Detected P w.header (contentsOf w items).blocks container source)
    (hlen : length ≤ w.header.layout.burstTolerance (contentsOf w items).blocks) :
    ∃ bound, ∀ fuel, bound < fuel → ∃ c,
      restored P Z D source passphrase fuel = some c ∧ Carries D b stats c := by
  obtain ⟨hb, rfl⟩ := h.bytes_eq
  obtain ⟨damaged, hheader⟩ := (hburst.oneHeader hdetected hlen).locateHeader
  obtain ⟨trailer, damaged', ht, hend⟩ := hburst.finish hdetected hlen hb
  have hcreate := create_eq (h.keyed hP) hheader hend
  have hone : ∀ i < (contentsOf w items).blocks, Contents.OneCopy
      ((contentsOf w items).reader P source trailer (damaged ++ damaged')) P (contentsOf w items) i :=
    fun i hi => hburst.oneCopy hdetected hlen hi
  obtain ⟨v, u, hread, hout, -⟩ := (Contents.ends_chunks ht hb (Contents.opens hP) hone false
    (Q := fun _ => True) trivial (fun _ _ _ _ => trivial) (fun _ _ _ _ => trivial)).returns
      fun _ _ h => h
  have hopen := h.openReader_eq hcreate rfl
  obtain ⟨bound, hpieces⟩ := h.readPieces_eq hZ rfl hread hout
  refine ⟨bound, fun fuel hfuel => ?_⟩
  obtain ⟨pieces, hsome, hflatten⟩ := hpieces fuel hfuel
  obtain ⟨-, c, hc, hcarries⟩ := produced_read D b hlegible hplain h.produced pieces hflatten
  refine ⟨c, ?_, hcarries⟩
  rw [restored, hopen]
  simp only [bind, Option.bind, hsome, hc]
  rfl

end Taken

/-! ## 4. The backup of two rows, in two small blocks -/

section Pairs

open Encoding (sample sample_prefixFree sample_ne_nil)

theorem pairBackup_length :
    481 ≤ (exec (produce Decoding.compact.hexdigest pairBackup) {}).2.emitted.flatten.length ∧
      (exec (produce Decoding.compact.hexdigest pairBackup) {}).2.emitted.flatten.length ≤ 960 := by
  decide +kernel

theorem taken_pairs {stats : Stats} {t : Stream} {w : StreamWriter}
    (hrun : exec (produce Decoding.compact.hexdigest pairBackup) {} = (.ok stats, t))
    (hcreate : StreamWriter.create .plain never .plain [] {} .small 1 0 = .ok w) :
    (contentsOf w t.emitted).layout = .small ∧ (contentsOf w t.emitted).blocks = 2 ∧
      Taken .plain (ofCode sample) .compact pairBackup stats t [] false t.emitted w
        ((contentsOf w t.emitted).bytes .plain) := by
  obtain ⟨hfresh, -, hheader⟩ := StreamWriter.create_ok hcreate
  have hlayout : (contentsOf w t.emitted).layout = .small := hheader.layout
  have hblocks : (contentsOf w t.emitted).blocks = 2 := by
    have hlength : 481 ≤ t.emitted.flatten.length ∧ t.emitted.flatten.length ≤ 960 := by
      have h := pairBackup_length
      rw [hrun] at h
      exact h
    rw [Contents.blocks_eq, hlayout]
    show max 1 ((t.emitted.flatten.length + 479) / 480) = 2
    omega
  have hle : (contentsOf w t.emitted).blocks ≤ maxBlocks := by
    rw [hblocks]
    decide
  exact ⟨hlayout, hblocks, hrun, ⟨1, 1, Nat.one_pos, .passedThrough⟩, ⟨.plain, {}, .small, 1, hcreate⟩,
    (written_eq hfresh _).trans (if_pos hle)⟩

/-- One changed byte in the tag of the first slot. -/
theorem damaged_pairs : ∃ stats t w container source start length,
    Taken .plain (ofCode sample) .compact pairBackup stats t [] false t.emitted w container ∧
      source ≠ container ∧ Burst container source start length ∧
      Detected .plain w.header (contentsOf w t.emitted).blocks container source ∧
      length ≤ w.header.layout.burstTolerance (contentsOf w t.emitted).blocks := by
  obtain ⟨stats, t, hrun⟩ := pairBackup_run
  obtain ⟨w, hcreate, -⟩ := exists_small .plain [] 1 (by decide) (by decide)
  obtain ⟨hlayout, hblocks, htaken⟩ := taken_pairs hrun hcreate
  set c := contentsOf w t.emitted
  have hlen : 1 ≤ c.layout.burstTolerance c.blocks := by
    rw [hblocks, hlayout]
    decide
  exact ⟨stats, t, w, _, _, _, _, htaken, set_tag_ne c.tag_plain_ne, burst_set _ _ 0,
    detected_set c.tag_plain_ne, hlen⟩

theorem written_recovered_pairs : ∃ (stats : Stats) (container source : Bytes), source ≠ container ∧
    ∃ bound, ∀ fuel, bound < fuel → ∃ c,
      restored .plain (ofCode sample) .compact source [] fuel = some c ∧
        Carries .compact pairBackup stats c := by
  obtain ⟨stats, t, w, container, source, start, length, htaken, hne, hburst, hdetected, hlen⟩ :=
    damaged_pairs
  exact ⟨stats, container, source, hne, written_recovered Primitives.plain_opens
    (lawful_ofCode sample_prefixFree sample_ne_nil) pairBackup_legible pairBackup_plain htaken hburst
    hdetected hlen⟩

end Pairs

end Dbs.Backups
