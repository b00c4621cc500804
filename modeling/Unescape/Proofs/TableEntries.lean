import Unescape.OffsetTable
import Unescape.Proofs.Boundary

set_option autoImplicit false

/-! # The entries of an offset table

`Scan.entries` lists the entries of the table of a text: the offsets of its tokens, in order, and
the sentinel. The functions of `OffsetTable` are described through this list.

Offsets of a token lie in its text and begin with its first unit (`Token.mem_offsets`), since a
token that was read is long enough for the units it decodes to (`Token.Proper`). So the entries
ascend, those of the tokens in front of a boundary lie before it, and the others at or behind it. -/

namespace Unescape

/-! ## Offsets of one token -/

namespace Token

/-- What holds of every token that is read: an escape has a backslash and a marker, and the two
    halves of a pair make a supplementary character. -/
def Proper : Token → Prop
  | plain _ => True
  | escape lexeme _ => 2 ≤ Text.units lexeme
  | pair high low c => unitsOf c = 2 ∧ 2 ≤ Text.units high ∧ 2 ≤ Text.units low

theorem two_le_units_cons_cons (c d : Char) (t : Text) : 2 ≤ Text.units (c :: d :: t) := by
  have hc := unitsOf_pos c
  have hd := unitsOf_pos d
  simp only [Text.units_cons]
  omega

theorem lowSurrogate?_spec {g : Grammar} {t lexeme rest : Text} {low : UInt32}
    (h : lowSurrogate? g t = some (lexeme, low, rest)) :
    CodeValue.isLowSurrogate low = true ∧ ∃ m r, lexeme = backslash :: m :: r := by
  obtain ⟨m, _, _, digits, -, rfl, -, -, hlow⟩ := lowSurrogate?_eq_some_iff.1 h
  exact ⟨hlow, m, digits, rfl⟩

theorem unitsOf_of_le {c : Char} (h : 0x10000 ≤ c.val) : unitsOf c = 2 := by
  unfold unitsOf
  split
  · rename_i hlt
    exact absurd hlt (UInt32.not_lt.2 h)
  · rfl

theorem proper_of_ofCodeValue {g : Grammar} {m : Char} {r rest rest' : Text} {value : UInt32}
    {tok : Token}
    (h : ofCodeValue g (backslash :: m :: r) value rest = .ok (tok, rest')) : tok.Proper := by
  cases ofCodeValue_eq_ok_iff.1 h with
  | scalar => exact two_le_units_cons_cons ..
  | pair high found char =>
    obtain ⟨hlow, m', r', rfl⟩ := lowSurrogate?_spec found
    obtain ⟨c, hc, hle⟩ := CodeValue.scalar?_combine _ _ high hlow
    obtain rfl := Option.some.inj (hc.symm.trans char)
    exact ⟨unitsOf_of_le hle, two_le_units_cons_cons .., two_le_units_cons_cons ..⟩

theorem proper_of_readEscape {g : Grammar} {t rest : Text} {tok : Token}
    (h : readEscape g t = .ok (tok, rest)) : tok.Proper := by
  cases readEscape_eq_ok_iff.1 h with
  | simple => exact two_le_units_cons_cons ..
  | numeric _ _ _ token => exact proper_of_ofCodeValue token
  | octal => exact two_le_units_cons_cons ..

theorem proper_of_read {g : Grammar} {c : Char} {r rest : Text} {tok : Token}
    (h : read g c r = .ok (tok, rest)) : tok.Proper := by
  rcases read_eq_ok_iff.1 h with ⟨-, hescape⟩ | ⟨-, rfl, -⟩
  · exact proper_of_readEscape hescape
  · trivial

/-- The first unit of a token comes from where the token begins. -/
theorem exists_offsets_eq_cons (start : Nat) (tok : Token) :
    ∃ os, tok.offsets start = start :: os := by
  cases tok with
  | plain c =>
    obtain ⟨n, hn⟩ := Nat.exists_eq_succ_of_ne_zero (Nat.ne_of_gt (unitsOf_pos c))
    exact ⟨_, by rw [offsets, hn, List.range'_succ]⟩
  | escape lexeme c =>
    obtain ⟨n, hn⟩ := Nat.exists_eq_succ_of_ne_zero (Nat.ne_of_gt (unitsOf_pos c))
    exact ⟨_, by rw [offsets, hn, List.replicate_succ]⟩
  | pair high low c => exact ⟨_, rfl⟩

theorem length_offsets {tok : Token} (h : tok.Proper) (start : Nat) :
    (tok.offsets start).length = unitsOf tok.char := by
  cases tok with
  | plain c => simp [offsets, char]
  | escape lexeme c => simp [offsets, char]
  | pair high low c => exact h.1.symm

theorem unitsOf_char_le {tok : Token} (h : tok.Proper) :
    unitsOf tok.char ≤ Text.units tok.text := by
  cases tok with
  | plain c => simp [char, text]
  | escape lexeme c =>
    have hc := unitsOf_eq_one_or_two c
    simp only [Proper, char, text] at h ⊢
    omega
  | pair high low c =>
    obtain ⟨hc, hhigh, _⟩ := h
    simp only [char, text, Text.units_append]
    omega

theorem mem_offsets {tok : Token} (h : tok.Proper) {start o : Nat} (ho : o ∈ tok.offsets start) :
    start ≤ o ∧ o < start + Text.units tok.text := by
  cases tok with
  | plain c => simpa [offsets, text, List.mem_range'_1] using ho
  | escape lexeme c =>
    obtain ⟨-, rfl⟩ := List.mem_replicate.1 ho
    simp only [Proper, text] at h ⊢
    omega
  | pair high low c =>
    obtain ⟨-, hhigh, hlow⟩ := h
    simp only [offsets, List.mem_cons, List.not_mem_nil, or_false] at ho
    simp only [text, Text.units_append]
    omega

theorem pairwise_offsets (start : Nat) (tok : Token) :
    (tok.offsets start).Pairwise (· ≤ ·) := by
  cases tok with
  | plain c => exact List.pairwise_le_range'
  | escape lexeme c => exact List.pairwise_replicate.2 (.inr (Nat.le_refl _))
  | pair high low c => simp [offsets]

/-! ## Offsets of several tokens -/

theorem length_offsetsOf {ts : List Token} (h : ∀ tok ∈ ts, tok.Proper) (start : Nat) :
    (offsetsOf start ts).length = Text.units (charsOf ts) := by
  induction ts generalizing start with
  | nil => rfl
  | cons tok ts ih =>
    obtain ⟨htok, hts⟩ := List.forall_mem_cons.1 h
    simp [offsetsOf, length_offsets htok, ih hts]

theorem units_charsOf_le {ts : List Token} (h : ∀ tok ∈ ts, tok.Proper) :
    Text.units (charsOf ts) ≤ Text.units (textOf ts) := by
  induction ts with
  | nil => simp
  | cons tok ts ih =>
    obtain ⟨htok, hts⟩ := List.forall_mem_cons.1 h
    have hle := unitsOf_char_le htok
    have := ih hts
    simp only [charsOf_cons, textOf_cons, Text.units_cons, Text.units_append]
    omega

theorem mem_offsetsOf {ts : List Token} (h : ∀ tok ∈ ts, tok.Proper) {start o : Nat}
    (ho : o ∈ offsetsOf start ts) : start ≤ o ∧ o < start + Text.units (textOf ts) := by
  induction ts generalizing start with
  | nil => simp [offsetsOf] at ho
  | cons tok ts ih =>
    obtain ⟨htok, hts⟩ := List.forall_mem_cons.1 h
    simp only [textOf_cons, Text.units_append]
    rcases List.mem_append.1 ho with ho | ho
    · have := mem_offsets htok ho
      omega
    · have := ih hts ho
      omega

theorem pairwise_offsetsOf {ts : List Token} (h : ∀ tok ∈ ts, tok.Proper) (start : Nat) :
    (offsetsOf start ts).Pairwise (· ≤ ·) := by
  induction ts generalizing start with
  | nil => simp [offsetsOf]
  | cons tok ts ih =>
    obtain ⟨htok, hts⟩ := List.forall_mem_cons.1 h
    refine List.pairwise_append.2 ⟨pairwise_offsets start tok, ih hts _, fun a ha b hb => ?_⟩
    have := mem_offsets htok ha
    have := mem_offsetsOf hts hb
    omega

end Token

theorem proper_of_mem_tokens {g : Grammar} {t : Text} {tok : Token}
    (h : tok ∈ (scan g t).tokens) : tok.Proper := by
  fun_induction scan g t with
  | case1 => simp at h
  | case2 => simp at h
  | case3 c r tok' rest hread hlen ih =>
    rcases List.mem_cons.1 h with rfl | h
    · exact Token.proper_of_read hread
    · exact ih h

/-! ## Entries -/

namespace Scan

/-- The entries of the offset table: the offsets of the tokens and the sentinel. -/
def entries (s : Scan) : List Nat := Token.offsetsOf 0 s.tokens ++ [s.consumed]

theorem entries_prepend (ts : List Token) (s : Scan) :
    (prepend ts s).entries =
      Token.offsetsOf 0 ts ++ s.entries.map (· + Text.units (Token.textOf ts)) := by
  have h := Token.offsetsOf_add 0 (Text.units (Token.textOf ts)) s.tokens
  rw [Nat.zero_add] at h
  simp [entries, Token.offsetsOf_append, h, Nat.add_comm]

/-- The table begins with the first unit of the text. -/
theorem exists_entries_eq_cons (s : Scan) : ∃ es, s.entries = 0 :: es := by
  unfold entries
  cases hts : s.tokens with
  | nil => exact ⟨[], by simp [Token.offsetsOf, consumed, hts]⟩
  | cons tok ts =>
    obtain ⟨os, hos⟩ := tok.exists_offsets_eq_cons 0
    exact ⟨os ++ Token.offsetsOf (0 + Text.units tok.text) ts ++ [s.consumed],
      by simp [Token.offsetsOf, hos]⟩

theorem zero_mem_entries (s : Scan) : 0 ∈ s.entries := by
  obtain ⟨es, hes⟩ := s.exists_entries_eq_cons
  rw [hes]
  exact List.mem_cons_self

end Scan

section Entries

variable (g : Grammar) (t : Text)

theorem proper_tokens : ∀ tok ∈ (scan g t).tokens, tok.Proper := fun _ => proper_of_mem_tokens

theorem consumed_scan_le : (scan g t).consumed ≤ Text.units t := by
  have h := congrArg Text.units (textOf_append_rest_scan g t)
  rw [Text.units_append] at h
  unfold Scan.consumed
  omega

theorem length_entries :
    (scan g t).entries.length = Text.units (Token.charsOf (scan g t).tokens) + 1 := by
  simp [Scan.entries, Token.length_offsetsOf (proper_tokens g t)]

theorem le_consumed_of_mem_entries {e : Nat} (h : e ∈ (scan g t).entries) :
    e ≤ (scan g t).consumed := by
  rcases List.mem_append.1 h with h | h
  · have := Token.mem_offsetsOf (proper_tokens g t) h
    unfold Scan.consumed
    omega
  · exact Nat.le_of_eq (List.mem_singleton.1 h)

theorem pairwise_entries : (scan g t).entries.Pairwise (· ≤ ·) := by
  refine List.pairwise_append.2
    ⟨Token.pairwise_offsetsOf (proper_tokens g t) 0, List.pairwise_singleton .., fun a ha b hb => ?_⟩
  rw [List.mem_singleton.1 hb]
  exact le_consumed_of_mem_entries g t (List.mem_append_left _ ha)

/-- The entries of a text whose first token is `tok`, and where those behind that token are. -/
theorem exists_entries_eq_append {tok : Token} {us : List Token}
    (htokens : (scan g t).tokens = tok :: us) :
    ∃ es, (scan g t).entries = tok.offsets 0 ++ es ∧ ∀ e ∈ es, Text.units tok.text ≤ e := by
  refine ⟨Token.offsetsOf (0 + Text.units tok.text) us ++ [(scan g t).consumed], ?_, fun e he => ?_⟩
  · rw [Scan.entries, htokens, Token.offsetsOf, List.append_assoc]
  · have hproper : ∀ tok ∈ us, Token.Proper tok := fun tok' h =>
      proper_tokens g t tok' (by simp [htokens, h])
    rcases List.mem_append.1 he with he | he
    · have := (Token.mem_offsetsOf hproper he).1
      omega
    · rw [List.mem_singleton.1 he, Scan.consumed, htokens, Token.textOf_cons, Text.units_append]
      omega

/-! ## The table of a text -/

theorem build_eq_entries :
    OffsetTable.build g t = ⟨(scan g t).entries.toArray, (scan g t).status 0⟩ :=
  OffsetTable.build_eq g t

theorem get?_build (i : Nat) : (OffsetTable.build g t).get? i = (scan g t).entries[i]? := by
  simp [build_eq_entries, OffsetTable.get?]

theorem decodedLength_build :
    (OffsetTable.build g t).decodedLength = Text.units (Token.charsOf (scan g t).tokens) := by
  simp [build_eq_entries, OffsetTable.decodedLength, OffsetTable.size, length_entries]

theorem consumed_build : (OffsetTable.build g t).consumed = (scan g t).consumed := by
  simp [build_eq_entries, OffsetTable.consumed, Scan.entries]

theorem isComplete_build :
    (OffsetTable.build g t).status.isComplete = (scan g t).fault.isNone := by
  rw [build_eq_entries]
  unfold Scan.status
  cases (scan g t).fault <;> rfl

end Entries

end Unescape
