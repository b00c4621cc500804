import Unescape.Proofs.FragmentPlaces

set_option autoImplicit false

/-! # A malformed escape is seen in its own text

The lexeme of a fault is what was examined to see it: the backslash, and then a marker, repeated
markers and digits as far as they go. Reading that lexeme alone meets the same fault
(`Token.read_cut_of_error`), also where a high surrogate looked ahead for its low half and found none:
the look-ahead is not part of the lexeme, and at the end of a text it finds none either.

So decoding stops at the malformed escape for reasons that lie in the escape. The text in front of it
decodes completely, with the same output; the text from its backslash on is malformed at its front; and
nothing behind the lexeme matters (`decode_around_malformed`). -/

namespace Unescape

namespace Token

variable {g : Grammar}

/-- A code value that stands for nothing with some text behind it stands for nothing at the end of a
    text. -/
theorem ofCodeValue_cut_of_error {lexeme rest : Text} {value : UInt32} {f : Fault}
    (h : ofCodeValue g lexeme value rest = .error f) : ofCodeValue g lexeme value [] = .error f := by
  refine ofCodeValue_eq_error_iff.2 ?_
  cases ofCodeValue_eq_error_iff.1 h with
  | high high _ => exact .high high rfl
  | low high low => exact .low high low
  | invalid high low char => exact .invalid high low char

theorem readEscape_cut_of_error {t : Text} {f : Fault} (h : readEscape g t = .error f) :
    ∃ x, f.lexeme = backslash :: x ∧ readEscape g x = .error f := by
  cases readEscape_eq_error_iff.1 h with
  | trailing => exact ⟨[], rfl, rfl⟩
  | @unknown m r hsimple hnumeric hoctal =>
    exact ⟨[m], rfl, readEscape_eq_error_iff.2 (.unknown hsimple hnumeric hoctal)⟩
  | digits hsimple he hread =>
    have hcut := NumericEscape.read_cut (s := []) hread
    rw [List.append_nil] at hcut
    exact ⟨_, rfl, readEscape_eq_error_iff.2 (.digits hsimple he hcut)⟩
  | numeric hsimple he hread fails =>
    have hcut := NumericEscape.read_cut (s := []) hread
    rw [List.append_nil] at hcut
    exact ⟨_, lexeme_prefix_of_ofCodeValue fails,
      readEscape_eq_error_iff.2 (.numeric hsimple he hcut (ofCodeValue_cut_of_error fails))⟩
  | octal hsimple hnumeric ho hd run char =>
    have hcut := octalRun_cut (s := []) run
    rw [List.append_nil] at hcut
    exact ⟨_, rfl, readEscape_eq_error_iff.2 (.octal hsimple hnumeric ho hd hcut char)⟩

/-- The lexeme of a fault is malformed for the same reason. -/
theorem read_cut_of_error {c : Char} {r : Text} {f : Fault} (h : read g c r = .error f) :
    ∃ x, f.lexeme = backslash :: x ∧ read g backslash x = .error f := by
  obtain ⟨rfl, hescape⟩ := read_eq_error_iff.1 h
  obtain ⟨x, hlexeme, hread⟩ := readEscape_cut_of_error hescape
  exact ⟨x, hlexeme, by rw [read_backslash, hread]⟩

end Token

section Fault

variable {g : Grammar} {t : Text} {f : Fault}

/-- A malformed text falls into the tokens in front of the fault, the lexeme of the fault and what stands
    behind it. The tokens alone read as themselves, and the fault is met in all parts of the text that
    hold its lexeme and begin at a token. -/
theorem exists_cut_of_fault (h : (scan g t).fault = some f) :
    ∃ ts s q, f.lexeme = backslash :: s ∧ t = Token.textOf ts ++ (backslash :: s) ++ q ∧
      scan g t = ⟨ts, (backslash :: s) ++ q, some f⟩ ∧
      scan g (Token.textOf ts) = ⟨ts, [], none⟩ ∧
      scan g ((backslash :: s) ++ q) = ⟨[], (backslash :: s) ++ q, some f⟩ ∧
      scan g (Token.textOf ts ++ (backslash :: s)) = ⟨ts, backslash :: s, some f⟩ := by
  obtain ⟨c, r, hrest, hread⟩ := exists_read_of_fault_eq_some h
  obtain ⟨rfl, s, q, hlexeme, rfl⟩ := Token.lexeme_prefix_of_read hread
  obtain ⟨x, hx, hcut⟩ := Token.read_cut_of_error hread
  obtain rfl : s = x := List.tail_eq_of_cons_eq (hlexeme.symm.trans hx)
  have hfronts : Fronts g (scan g t).tokens ((backslash :: s) ++ q) := by
    rw [List.cons_append, ← hrest]
    exact fronts_of_tokens_eq_append (List.append_nil (scan g t).tokens).symm
  have htext := textOf_append_rest_scan g t
  rw [hrest] at htext
  refine ⟨(scan g t).tokens, s, q, hlexeme, ?_, ?_, hfronts.scan_textOf, scan_of_error hread, ?_⟩
  · rw [List.append_assoc, List.cons_append, htext]
  · rw [List.cons_append, ← hrest, ← h]
  · rw [hfronts.left.scan_append, scan_of_error hcut, Scan.prepend, List.append_nil]

end Fault

/-- Decoding a malformed text stops at a backslash. The text in front of it decodes completely, to the
    same output and offsets; from the backslash on, the text is malformed at its front for the same
    reason; and so is the whole text when it is cut behind the escape. -/
theorem decode_around_malformed {g : Grammar} {t : Text} {out : Output} {e : Malformed}
    (h : decode g t Output.recording = (out, .stopped e)) :
    e.span.start < e.span.stop ∧ e.span.stop ≤ Text.units t ∧
    ∃ front escape back, t = front ++ (backslash :: escape) ++ back ∧
      Text.units front = e.span.start ∧ Text.units (front ++ (backslash :: escape)) = e.span.stop ∧
      decode g front Output.recording = (out, .complete) ∧
      decode g ((backslash :: escape) ++ back) Output.recording =
        (⟨#[], some #[0]⟩, .stopped ⟨⟨0, e.span.stop - e.span.start⟩, e.kind⟩) ∧
      decode g (front ++ (backslash :: escape)) Output.recording = (out, .stopped e) := by
  rw [decode_recording_eq] at h
  obtain ⟨rfl, hstatus⟩ := Prod.mk.inj h
  obtain ⟨f, hfault, hspan, hkind⟩ := exists_fault_of_stopped hstatus
  obtain ⟨ts, s, q, hlexeme, rfl, hscan, hfront, hback, hcut⟩ := exists_cut_of_fault hfault
  have hstart : e.span.start = Text.units (Token.textOf ts) := by
    rw [hspan, hscan, Nat.zero_add, Scan.consumed]
  have hstop : e.span.stop = Text.units (Token.textOf ts) + Text.units (backslash :: s) := by
    rw [hspan, hscan, Nat.zero_add, Scan.consumed, hlexeme]
  have hpos := unitsOf_pos backslash
  refine ⟨?_, ?_, Token.textOf ts, s, q, rfl, hstart.symm, ?_, ?_, ?_, ?_⟩
  · rw [hstart, hstop, Text.units_cons]
    omega
  · rw [hstop, Text.units_append, Text.units_append]
    exact Nat.le_add_right _ _
  · rw [hstop, Text.units_append]
  · rw [decode_recording_eq, hfront, hscan]
    rfl
  · have hunits : Text.units f.lexeme = e.span.stop - e.span.start := by
      rw [hstart, hstop, Nat.add_sub_cancel_left, hlexeme]
    rw [decode_recording_eq, hback, hkind, ← hunits]
    simp [Scan.consumed, Scan.status, Token.offsetsOf]
  · rw [hscan] at hstatus ⊢
    rw [decode_recording_eq, hcut]
    exact Prod.ext rfl hstatus

/-- A high surrogate whose low half has the wrong value, behind a pair of escapes and in front of more
    text: neither the look-ahead nor what follows is part of the escape. -/
theorem decode_around_malformed_lone_surrogate :
    decode Grammar.java "a\\uD83D\\uDE00\\uD83D\\u0041z".toList Output.recording =
      (⟨#['a', '😀'], some #[0, 1, 7, 13]⟩, .stopped ⟨⟨13, 19⟩, .loneSurrogate 0xD83D⟩) ∧
    13 < 19 ∧ 19 ≤ Text.units "a\\uD83D\\uDE00\\uD83D\\u0041z".toList ∧
    ∃ front escape back,
      "a\\uD83D\\uDE00\\uD83D\\u0041z".toList = front ++ (backslash :: escape) ++ back ∧
      Text.units front = 13 ∧ Text.units (front ++ (backslash :: escape)) = 19 ∧
      decode Grammar.java front Output.recording =
        (⟨#['a', '😀'], some #[0, 1, 7, 13]⟩, .complete) ∧
      decode Grammar.java ((backslash :: escape) ++ back) Output.recording =
        (⟨#[], some #[0]⟩, .stopped ⟨⟨0, 19 - 13⟩, .loneSurrogate 0xD83D⟩) ∧
      decode Grammar.java (front ++ (backslash :: escape)) Output.recording =
        (⟨#['a', '😀'], some #[0, 1, 7, 13]⟩, .stopped ⟨⟨13, 19⟩, .loneSurrogate 0xD83D⟩) := by
  have h : decode Grammar.java "a\\uD83D\\uDE00\\uD83D\\u0041z".toList Output.recording =
      (⟨#['a', '😀'], some #[0, 1, 7, 13]⟩, .stopped ⟨⟨13, 19⟩, .loneSurrogate 0xD83D⟩) := by
    decide +kernel
  exact ⟨h, decode_around_malformed h⟩

end Unescape
