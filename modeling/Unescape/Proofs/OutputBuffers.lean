import Unescape.Proofs.CacheTransparency
import Unescape.Proofs.RangeLookup

set_option autoImplicit false

/-! # Buffers do not influence decoding

Decoding writes to the ends of buffers that belong to its caller: one for characters, and one for
offsets if the caller wants a record. What is written follows from the text alone. It is the same whatever
the buffers held before and whether or not there is a buffer for offsets, and this is so also where
decoding stops at a malformed escape (`decode_prior`).

A mapper relies on this. It decodes a range into the buffer of its caller and records nothing, while its
table comes from a decode that records everything; over the whole literal the two agree
(`decode_ignores_buffers`). -/

namespace Unescape

/-- The buffers as they are if `prior` was in them before. There is a record of offsets if there is one
    in `prior`. -/
def Output.behind (out prior : Output) : Output where
  chars := prior.chars ++ out.chars
  offsets := prior.offsets.map fun os => os ++ out.offsets.getD #[]

section Decode

variable (g : Grammar) (t : Text)

/-- Decoding into buffers that hold something is decoding into empty ones, with what they held put in
    front. -/
theorem decode_prior (prior : Output) :
    decode g t prior = ((decode g t Output.recording).1.behind prior, (decode g t Output.recording).2) := by
  rw [decode_eq, decode_recording_eq]
  simp [Output.behind, Output.append]

/-- The table of a text is what decoding it into empty buffers records. -/
theorem decode_recording_eq_build :
    ∃ out, decode g t Output.recording
        = (⟨out, some (OffsetTable.build g t).offsets⟩, (OffsetTable.build g t).status) ∧
      Text.units out.toList = (OffsetTable.build g t).decodedLength := by
  refine ⟨_, ?_, (decodedLength_build g t).symm⟩
  rw [decode_recording_eq, build_eq_entries]
  rfl

end Decode

namespace Mapper

variable {g : Grammar} {host : Text}

/-- All of the host is never refused. It is decoded behind what is in the buffer, and a malformed escape
    keeps its place. -/
theorem decodeFresh_whole (chars : Array Char) :
    decodeFresh g host ⟨0, Text.units host⟩ chars
      = (.ok (decode g host (Output.plain chars)).2, (decode g host (Output.plain chars)).1.chars) := by
  rw [decodeFresh, Text.slice?_whole]
  dsimp only
  rw [decode_eq, ← Scan.status_add]

end Mapper

/-- What decoding writes, and how it ends, does not depend on the buffers. With and without a record of
    offsets the same characters are put behind those of the buffer and the decode ends in the same way;
    the offsets, if wanted, are put behind those of their buffer. So a mapper, whatever it was asked
    before, decodes all of its literal to as many units as its table says, and both stop at the same
    malformed escape. -/
theorem decode_ignores_buffers (g : Grammar) (t : Text) (chars : Array Char) (offsets : Array Nat) :
    ∃ out os status,
      decode g t Output.recording = (⟨out, some os⟩, status) ∧
      decode g t ⟨chars, some offsets⟩ = (⟨chars ++ out, some (offsets ++ os)⟩, status) ∧
      decode g t (Output.plain chars) = (⟨chars ++ out, none⟩, status) ∧
      ∀ requests,
        (((Mapper.decodeChecked ⟨0, Text.units t⟩).run chars).run (Mapper.after g t requests)).value.1
          = (.ok status, chars ++ out) ∧
        (Mapper.offsetTable.run (Mapper.after g t requests)).value.1.status = status ∧
        (Mapper.offsetTable.run (Mapper.after g t requests)).value.1.decodedLength
          = Text.units out.toList := by
  obtain ⟨out, hrecord, hlength⟩ := decode_recording_eq_build g t
  have hplain : decode g t (Output.plain chars)
      = (⟨chars ++ out, none⟩, (OffsetTable.build g t).status) := by
    rw [decode_prior, hrecord]
    rfl
  refine ⟨out, _, _, hrecord, ?_, hplain, ?_⟩
  · rw [decode_prior, hrecord]
    rfl
  · intro requests
    have hserves := (Mapper.reachable_after g t requests).serves
    rw [(Mapper.answers_decodeChecked _ chars _ hserves).1, Mapper.decodeFresh_whole, hplain,
      (Mapper.answers_offsetTable _ hserves).1]
    exact ⟨rfl, rfl, hlength.symm⟩

/-- Buffers that hold something, and a malformed escape behind another one: with a record and without. -/
example :
    decode Grammar.java "a\\n\\q".toList ⟨#['x'], some #[7]⟩
        = (⟨#['x', 'a', '\n'], some #[7, 0, 1, 3]⟩, .stopped ⟨⟨3, 5⟩, .unknownEscape 'q'⟩) ∧
      decode Grammar.java "a\\n\\q".toList (Output.plain #['x'])
        = (⟨#['x', 'a', '\n'], none⟩, .stopped ⟨⟨3, 5⟩, .unknownEscape 'q'⟩) := by
  decide +kernel

end Unescape
