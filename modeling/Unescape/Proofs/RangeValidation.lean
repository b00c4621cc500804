import Unescape.Proofs.FaultLocality
import Unescape.Proofs.PositionRounding

set_option autoImplicit false

/-! # Which ranges are decoded

A range comes from a caller and may be anything. The mapper looks up the bytes of its two ends and
compares these; that is a condition on bytes, and only where a text stands between the two ends does it
say what it should about offsets. `Span.Names` is the condition meant: the ends are in order, in the
text, and not inside a character. The cut of the text and the test on bytes both decide it
(`Span.names_iff_slice?`, `Span.names_iff_byteIndex?`).

A range is looked at before anything is done. A refused one leaves all as it was, the buffer of the
caller included; an accepted one is decoded to the end of the buffer, whatever the mapper knew before
(`Mapper.decodeChecked_validates`). -/

namespace Unescape

namespace Text

variable {t : Text} {n : Nat}

/-! ## Bytes of the fronts of a text -/

theorem bytes_append (s t : Text) : bytes (s ++ t) = bytes s + bytes t := by
  induction s with
  | nil => rw [List.nil_append, bytes, Nat.zero_add]
  | cons c s ih => rw [List.cons_append, bytes, bytes, ih, Nat.add_assoc]

theorem eq_nil_of_bytes_eq_zero (h : bytes t = 0) : t = [] := by
  cases t with
  | nil => rfl
  | cons c t =>
    have := c.utf8Size_pos
    rw [bytes] at h
    omega

/-- The fronts of a text are in the same order by units as by bytes. -/
theorem bytes_le_bytes_iff {p p' q q' : Text} (h : p ++ q = p' ++ q') :
    bytes p ≤ bytes p' ↔ units p ≤ units p' := by
  constructor
  · intro hbytes
    rcases Nat.le_total (units p) (units p') with hle | hle
    · exact hle
    · obtain ⟨w, rfl, -⟩ := exists_append_of_units_le h.symm hle
      rw [bytes_append] at hbytes
      obtain rfl : w = [] := eq_nil_of_bytes_eq_zero (by omega)
      exact Nat.le_of_eq (congrArg units (List.append_nil p'))
  · intro hle
    obtain ⟨w, rfl, -⟩ := exists_append_of_units_le h hle
    rw [bytes_append]
    exact Nat.le_add_right _ _

/-! ## Where a text can be cut -/

/-- A text falls in two at the offsets that are in the text and not inside a character. -/
theorem exists_eq_append_iff :
    (∃ p q, t = p ++ q ∧ units p = n) ↔ n ≤ units t ∧ ¬ IsInsideChar t n := by
  rw [← units_takeUnits_eq_iff]
  constructor
  · rintro ⟨p, q, rfl, rfl⟩
    rw [takeUnits_append]
  · intro h
    exact ⟨_, _, (takeUnits_append_dropUnits t n).symm, h⟩

/-- The byte of an offset is the length in bytes of what stands in front of it. -/
theorem byteIndex?_eq_some_iff {b : Nat} :
    byteIndex? t n = some b ↔ ∃ p q, t = p ++ q ∧ units p = n ∧ bytes p = b := by
  rw [byteIndex?, Option.map_eq_some_iff]
  constructor
  · rintro ⟨⟨p, q⟩, hsplit, rfl⟩
    obtain ⟨rfl, hunits⟩ := (splitAt?_eq_some_iff t n p q).1 hsplit
    exact ⟨p, q, rfl, hunits, rfl⟩
  · rintro ⟨p, q, heq, hunits, rfl⟩
    exact ⟨(p, q), (splitAt?_eq_some_iff t n p q).2 ⟨heq, hunits⟩, rfl⟩

theorem byteIndex?_append (p q : Text) : byteIndex? (p ++ q) (units p) = some (bytes p) :=
  byteIndex?_eq_some_iff.2 ⟨p, q, rfl, rfl, rfl⟩

theorem byteIndex?_eq_none_iff : byteIndex? t n = none ↔ ¬ ∃ p q, t = p ++ q ∧ units p = n := by
  rw [Option.eq_none_iff_forall_ne_some]
  constructor
  · rintro h ⟨p, q, rfl, rfl⟩
    exact h _ (byteIndex?_append p q)
  · rintro h b hb
    obtain ⟨p, q, heq, hunits, -⟩ := byteIndex?_eq_some_iff.1 hb
    exact h ⟨p, q, heq, hunits⟩

/-- A slice stands between the bytes of its two ends. -/
theorem exists_byteIndex?_of_slice? {range : Span} {part : Text} (h : slice? t range = some part) :
    ∃ p q, t = p ++ part ++ q ∧ byteIndex? t range.start = some (bytes p) ∧
      byteIndex? t range.stop = some (bytes (p ++ part)) := by
  obtain ⟨hle, p, q, rfl, hp, hunits⟩ := (slice?_eq_some_iff _ _ _).1 h
  have hstop : units (p ++ part) = range.stop := by
    rw [units_append]
    omega
  refine ⟨p, q, rfl, ?_, ?_⟩
  · rw [← hp, List.append_assoc, byteIndex?_append]
  · rw [← hstop, byteIndex?_append]

end Text

namespace Span

variable {s : Span} {t : Text}

/-- The span names a part of the text: its ends are in order and in the text, and neither is between
    the halves of a character. -/
structure Names (s : Span) (t : Text) : Prop where
  start_le : s.start ≤ s.stop
  stop_le : s.stop ≤ Text.units t
  not_inside_start : ¬ Text.IsInsideChar t s.start
  not_inside_stop : ¬ Text.IsInsideChar t s.stop

/-- The spans that name a part are those at whose ends the text can be cut. -/
theorem names_iff_exists :
    s.Names t ↔ s.start ≤ s.stop ∧ (∃ p q, t = p ++ q ∧ Text.units p = s.start) ∧
      ∃ p q, t = p ++ q ∧ Text.units p = s.stop := by
  rw [Text.exists_eq_append_iff, Text.exists_eq_append_iff]
  constructor
  · rintro ⟨hle, hstop, hs, he⟩
    exact ⟨hle, ⟨Nat.le_trans hle hstop, hs⟩, hstop, he⟩
  · rintro ⟨hle, ⟨-, hs⟩, hstop, he⟩
    exact ⟨hle, hstop, hs, he⟩

theorem names_iff_slice? : s.Names t ↔ ∃ part, Text.slice? t s = some part := by
  rw [names_iff_exists]
  constructor
  · rintro ⟨hle, ⟨p, q, rfl, hp⟩, p', q', heq, hp'⟩
    obtain ⟨w, rfl, rfl⟩ := Text.exists_append_of_units_le heq (by omega)
    rw [Text.units_append] at hp'
    exact ⟨w, (Text.slice?_eq_some_iff _ _ _).2 ⟨hle, p, q', by simp, hp, by omega⟩⟩
  · rintro ⟨part, hpart⟩
    obtain ⟨hle, p, q, rfl, hp, hunits⟩ := (Text.slice?_eq_some_iff _ _ _).1 hpart
    refine ⟨hle, ⟨p, part ++ q, by simp, hp⟩, p ++ part, q, rfl, ?_⟩
    rw [Text.units_append]
    omega

/-- All of a text is a part of it. -/
theorem names_whole (t : Text) : (⟨0, Text.units t⟩ : Span).Names t :=
  names_iff_slice?.2 ⟨t, Text.slice?_whole t⟩

/-- Both ends have a byte, and these are in order, exactly if the span names a part. -/
theorem names_iff_byteIndex? :
    s.Names t ↔ ∃ a b, Text.byteIndex? t s.start = some a ∧ Text.byteIndex? t s.stop = some b ∧
      a ≤ b := by
  simp only [names_iff_exists, Text.byteIndex?_eq_some_iff]
  constructor
  · rintro ⟨hle, ⟨p, q, hpq, hp⟩, p', q', hpq', hp'⟩
    refine ⟨_, _, ⟨p, q, hpq, hp, rfl⟩, ⟨p', q', hpq', hp', rfl⟩, ?_⟩
    exact (Text.bytes_le_bytes_iff (hpq.symm.trans hpq')).2 (by omega)
  · rintro ⟨a, b, ⟨p, q, hpq, hp, rfl⟩, ⟨p', q', hpq', hp', rfl⟩, hle⟩
    refine ⟨?_, ⟨p, q, hpq, hp⟩, p', q', hpq', hp'⟩
    rw [← hp, ← hp']
    exact (Text.bytes_le_bytes_iff (hpq.symm.trans hpq')).1 hle

end Span

namespace Mapper

/-! ## What decoding a range does to the buffer and the mapper -/

variable {m : Mapper} {range : Span}

/-- A refused range leaves no trace: not in the buffer, not in the mapper, and nothing is reported. -/
theorem run_decodeChecked_of_none (h : Text.slice? m.host range = none) (chars : Array Char) :
    ((decodeChecked range).run chars).run m
      = ⟨((.error (.invalidRange range m.hostLength), chars), m), []⟩ := by
  rw [run_decodeChecked, StateT.run_bind, StateT.run_get, pure_bind, h]
  rfl

/-- The part that a range names is decoded to the end of the buffer. -/
theorem value_decodeChecked_of_some {part : Text} (h : Text.slice? m.host range = some part)
    (chars : Array Char) :
    (((decodeChecked range).run chars).run m).value.1 =
      (.ok ((decode m.grammar part (Output.plain chars)).2.shift range.start),
        (decode m.grammar part (Output.plain chars)).1.chars) := by
  simp only [run_decodeChecked, StateT.run_bind, StateT.run_get, Logged.value_bind,
    Logged.value_pure, h]
  cases (decode m.grammar part (Output.plain chars)).2.shift range.start <;> rfl

/-- What was in the buffer has no influence on what is decoded, and stays in front of it. -/
theorem decode_plain (g : Grammar) (part : Text) (chars : Array Char) :
    decode g part (Output.plain chars) =
      (⟨chars ++ (decode g part (Output.plain #[])).1.chars, none⟩,
        (decode g part (Output.plain #[])).2) := by
  rw [decode_eq, decode_eq]
  simp [Output.append, Output.plain]

/-- A malformed escape of a part, placed in the host, lies in the part and begins at a backslash. -/
theorem exists_of_shift_stopped {g : Grammar} {front part : Text} {out : Output} {e : Malformed}
    (h : (decode g part out).2.shift (Text.units front) = .stopped e) (back : Text) :
    Text.units front ≤ e.span.start ∧ e.span.start < e.span.stop ∧
      e.span.stop ≤ Text.units (front ++ part) ∧
      ∃ before after, front ++ part ++ back = before ++ backslash :: after ∧
        Text.units before = e.span.start := by
  rw [decode_eq, ← Scan.status_add, Nat.zero_add] at h
  obtain ⟨s, q, hpart, hspan⟩ := exists_eq_append_of_stopped h
  have hunits := congrArg Text.units hpart
  rw [Text.units_append, Text.units_append] at hunits
  have hpos : 0 < Text.units (backslash :: s) := Nat.add_pos_left (unitsOf_pos _) _
  rw [hspan, Scan.consumed]
  refine ⟨Nat.le_add_right _ _, Nat.lt_add_of_pos_right hpos, ?_,
    front ++ Token.textOf (scan g part).tokens, s ++ q ++ back, ?_, Text.units_append _ _⟩
  · show Text.units front + Text.units (Token.textOf (scan g part).tokens) + Text.units (backslash :: s)
      ≤ Text.units (front ++ part)
    rw [Text.units_append]
    omega
  · have htail : part ++ back = Token.textOf (scan g part).tokens ++ (backslash :: s ++ q) ++ back :=
      congrArg (· ++ back) hpart
    rw [List.append_assoc, htail]
    simp

/-- A range is decoded if it names a part of the host and is refused otherwise, and the test on the
    bytes of its ends tells which. A refusal says what was asked for and how long the host is, and
    changes neither the buffer nor the mapper; nothing is reported. A range that is decoded puts what
    its part decodes to behind what was in the buffer, and a malformed escape is placed in the host:
    inside the range, and at a backslash. -/
theorem decodeChecked_validates (m : Mapper) (range : Span) (chars : Array Char) :
    (range.Names m.host ↔
      ∃ a b, Text.byteIndex? m.host range.start = some a ∧ Text.byteIndex? m.host range.stop = some b ∧
        a ≤ b) ∧
    ((∃ e, (((decodeChecked range).run chars).run m).value.1.1 = .error e) ↔ ¬ range.Names m.host) ∧
    (∀ e, (((decodeChecked range).run chars).run m).value.1.1 = .error e →
      ((decodeChecked range).run chars).run m
        = ⟨((.error (.invalidRange range m.hostLength), chars), m), []⟩) ∧
    (∀ status, (((decodeChecked range).run chars).run m).value.1.1 = .ok status →
      ∃ front part back out ended, m.host = front ++ part ++ back ∧
        Text.units front = range.start ∧ Text.units (front ++ part) = range.stop ∧
        decode m.grammar part (Output.plain #[]) = (out, ended) ∧
        (((decodeChecked range).run chars).run m).value.1.2 = chars ++ out.chars ∧
        status = ended.shift range.start ∧
        ∀ e, status = .stopped e → range.start ≤ e.span.start ∧ e.span.start < e.span.stop ∧
          e.span.stop ≤ range.stop ∧
          ∃ before after, m.host = before ++ backslash :: after ∧ Text.units before = e.span.start) := by
  refine ⟨Span.names_iff_byteIndex?, ?_⟩
  rw [Span.names_iff_slice?]
  cases hslice : Text.slice? m.host range with
  | none =>
    rw [run_decodeChecked_of_none hslice]
    refine ⟨by simp, ?_, ?_⟩
    · intro _ _
      rfl
    · intro status hstatus
      simp at hstatus
  | some part =>
    rw [value_decodeChecked_of_some hslice, decode_plain]
    refine ⟨by simp, ?_, ?_⟩
    · intro e he
      simp at he
    · intro status hstatus
      obtain rfl := Except.ok.inj hstatus
      obtain ⟨hle, front, back, hhost, hfront, hpart⟩ := (Text.slice?_eq_some_iff _ _ _).1 hslice
      have hstop : Text.units (front ++ part) = range.stop := by
        rw [Text.units_append]
        omega
      refine ⟨front, part, back, _, _, hhost, hfront, hstop, rfl, rfl, rfl, ?_⟩
      intro e he
      rw [← hfront] at he
      obtain ⟨hstart, hlt, hle', hbefore⟩ := exists_of_shift_stopped he back
      exact ⟨hfront ▸ hstart, hlt, hstop ▸ hle', hhost ▸ hbefore⟩

/-- A range that ends between the halves of a character. -/
example : ((decodeChecked ⟨0, 2⟩).run #['x']).run (new "a😀".toList Grammar.java)
    = ⟨((.error (.invalidRange ⟨0, 2⟩ 3), #['x']), new "a😀".toList Grammar.java), []⟩ :=
  rfl

end Mapper

end Unescape
