import Backtrack.Quoted
import Mathlib.Algebra.GroupWithZero.Nat
import Mathlib.Data.List.Basic

/-!
# What is shown of a character

A message names a character by the quoted form of the text that consists of it.  The main statements
say what this form is and that it determines the character.  Most characters stand for themselves
between single quotes, and every other one is written by a name of one letter or by its code in
hexadecimal digits.
-/

namespace Backtrack

/-! ## Codes -/

theorem digitChar_inj_of_lt {m n : ℕ} (hm : m < 16) (hn : n < 16)
    (h : m.digitChar = n.digitChar) : m = n := by
  have hall : ∀ i < 16, ∀ j < 16, i.digitChar = j.digitChar → i = j := by decide
  exact hall m hm n hn h

theorem div_lt_of_lt_pow_succ {width n : ℕ} (h : n < 16 ^ (width + 1)) : n / 16 < 16 ^ width := by
  rw [Nat.pow_succ, Nat.mul_comm] at h
  exact Nat.div_lt_of_lt_mul h

/-- A number that fits into so many digits is determined by them. -/
theorem hexDigits_inj {width m n : ℕ} (hm : m < 16 ^ width) (hn : n < 16 ^ width)
    (h : hexDigits width m = hexDigits width n) : m = n := by
  induction width generalizing m n with
  | zero => omega
  | succ width ih =>
    obtain ⟨hfront, hlast⟩ := List.append_inj h (by rw [length_hexDigits, length_hexDigits])
    have hdigit : m % 16 = n % 16 := digitChar_inj_of_lt (Nat.mod_lt _ (by decide))
      (Nat.mod_lt _ (by decide)) (List.singleton_inj.mp hlast)
    have hquotient : m / 16 = n / 16 :=
      ih (div_lt_of_lt_pow_succ hm) (div_lt_of_lt_pow_succ hn) hfront
    omega

theorem leftpad_concat (width : ℕ) (zero digit : Char) (digits : Text) :
    (digits ++ [digit]).leftpad (width + 1) zero = digits.leftpad width zero ++ [digit] := by
  simp [List.leftpad]

/-- The digits of a number that fits, with zeros in front up to the width. -/
theorem hexDigits_eq_leftpad {width n : ℕ} (hpos : 0 < width) (h : n < 16 ^ width) :
    hexDigits width n = (Nat.toDigits 16 n).leftpad width '0' := by
  induction width generalizing n with
  | zero => contradiction
  | succ width ih =>
    rcases Nat.eq_zero_or_pos width with rfl | hwidth
    · have hn : n < 16 := by simpa using h
      rw [Nat.toDigits_of_lt_base hn, hexDigits, hexDigits, Nat.mod_eq_of_lt hn]
      rfl
    rw [hexDigits, ih hwidth (div_lt_of_lt_pow_succ h), ← leftpad_concat]
    by_cases hn : n < 16
    · -- A single digit has one more zero in front: the quotient is zero and has a digit as well.
      rw [Nat.div_eq_of_lt hn, Nat.mod_eq_of_lt hn, Nat.toDigits_zero, Nat.toDigits_of_lt_base hn]
      obtain ⟨rest, rfl⟩ := Nat.exists_eq_add_one.mpr hwidth
      simp [List.leftpad, List.replicate_succ']
    · rw [← Nat.toDigits_of_base_le (by decide) (Nat.not_lt.mp hn)]

/-! ## Characters -/

/-- The letter in front of a code and the number of its digits. -/
def codeForm (code : ℕ) : Char × ℕ :=
  if code < 0x100 then ('x', 2) else if code < 0x10000 then ('u', 4) else ('U', 8)

/-- A code in hexadecimal digits, with zeros in front up to the width. -/
def codeDigits (code : ℕ) : Text := (Nat.toDigits 16 code).leftpad (codeForm code).2 '0'

/-- The characters that have a name of one letter, with their names. -/
def charNames : List (Char × Char) := [('\\', '\\'), ('\n', 'n'), ('\r', 'r'), ('\t', 't')]

/-- A character and what is shown of it. -/
inductive Shows : Char → Text → Prop
  | plain {c : Char} (hprintable : isUnprintable c = false) (hquote : c ≠ '\'')
    (hbackslash : c ≠ '\\') : Shows c ['\'', c, '\'']
  | singleQuote : Shows '\'' ['"', '\'', '"']
  | named {c name : Char} (hname : (c, name) ∈ charNames) : Shows c ['\'', '\\', name, '\'']
  | code {c : Char} (hunprintable : isUnprintable c) (hunnamed : ∀ name, (c, name) ∉ charNames) :
    Shows c ('\'' :: '\\' :: (codeForm c.toNat).1 :: (codeDigits c.toNat ++ ['\'']))

theorem codeForm_pos (code : ℕ) : 0 < (codeForm code).2 := by
  unfold codeForm
  split
  case isTrue => decide
  case isFalse => split <;> decide

theorem toNat_lt_pow_codeForm (c : Char) : c.toNat < 16 ^ (codeForm c.toNat).2 := by
  have hc : c.toNat < 16 ^ 8 := c.val.toNat_lt
  unfold codeForm
  split
  case isTrue h => exact h
  case isFalse => split <;> assumption

theorem codeDigits_eq_hexDigits (c : Char) :
    codeDigits c.toNat = hexDigits (codeForm c.toNat).2 c.toNat :=
  (hexDigits_eq_leftpad (codeForm_pos _) (toNat_lt_pow_codeForm c)).symm

theorem codeDigits_ne_nil (code : ℕ) : codeDigits code ≠ [] := by
  have hpos := codeForm_pos code
  apply List.ne_nil_of_length_pos
  rw [codeDigits, List.length_leftpad]
  omega

/-- The digits of a code are as many as its form says, so they are the code of no other character. -/
theorem eq_of_codeDigits_eq {c d : Char} (h : codeDigits c.toNat = codeDigits d.toNat) : c = d := by
  rw [codeDigits_eq_hexDigits, codeDigits_eq_hexDigits] at h
  have hwidth := congrArg List.length h
  rw [length_hexDigits, length_hexDigits] at hwidth
  have hd := toNat_lt_pow_codeForm d
  rw [← hwidth] at h hd
  exact Char.toNat_inj.mp (hexDigits_inj (toNat_lt_pow_codeForm c) hd h)

theorem charName_unique {c d name : Char} (h : (c, name) ∈ charNames)
    (h' : (d, name) ∈ charNames) : c = d := by
  have hunique : ∀ pair ∈ charNames, ∀ other ∈ charNames, pair.2 = other.2 → pair.1 = other.1 := by
    decide
  exact hunique _ h _ h' rfl

/-! ## Quoted characters -/

section Quoted

variable {c : Char}

theorem quoted_singleton (h : c ≠ '\'') :
    quoted [c] = '\'' :: (escapeChar '\'' c ++ ['\'']) := by
  have hquote : quoteFor [c] = '\'' := by simp [quoteFor, h.symm]
  simp [quoted, hquote]

theorem isUnprintable_iff :
    isUnprintable c ↔ ∃ range ∈ unprintableRanges, range.1 ≤ c.toNat ∧ c.toNat ≤ range.2 := by
  simp [isUnprintable]

/-- The unprintable ones of the ASCII characters are the controls. -/
theorem isUnprintable_iff_of_lt (h : c.toNat < 128) :
    isUnprintable c ↔ c.toNat < 32 ∨ c.toNat = 127 := by
  have htable : unprintableRanges = [(0, 0x1f), (0x7f, 0xa0)] ++ unprintableRanges.drop 2 := rfl
  have hbeyond : ∀ range ∈ unprintableRanges.drop 2, 128 ≤ range.1 := by decide +kernel
  rw [isUnprintable_iff]
  constructor
  · rintro ⟨range, hmem, hlow, hhigh⟩
    rw [htable, List.mem_append] at hmem
    rcases hmem with hfirst | hrest
    · simp only [List.mem_cons, List.not_mem_nil, or_false] at hfirst
      rcases hfirst with rfl | rfl
      · exact .inl (Nat.lt_succ_of_le hhigh)
      · exact .inr (Nat.le_antisymm (Nat.le_of_lt_succ h) hlow)
    · exact absurd hlow (Nat.not_le.mpr (Nat.lt_of_lt_of_le h (hbeyond range hrest)))
  · rintro (hlow | hdelete)
    · exact ⟨_, List.mem_cons_self, Nat.zero_le _, Nat.le_of_lt_succ hlow⟩
    · exact ⟨_, List.mem_cons_of_mem _ List.mem_cons_self, Nat.le_of_eq hdelete.symm,
        Nat.le_trans (Nat.le_of_eq hdelete) (by decide)⟩

theorem ne_quote_of_isUnprintable (h : isUnprintable c) : c ≠ '\'' := by
  rintro rfl
  exact absurd ((isUnprintable_iff_of_lt (by decide)).mp h) (by decide)

theorem escapeChar_plain {quote : Char} (hprintable : isUnprintable c = false) (hquote : c ≠ quote)
    (hbackslash : c ≠ '\\') : escapeChar quote c = [c] := by
  have hne (d : Char) (hd : d.toNat < 32) : c ≠ d := by
    rintro rfl
    have hcontrol := (isUnprintable_iff_of_lt (Nat.lt_trans hd (by decide))).mpr (.inl hd)
    exact Bool.false_ne_true (hprintable.symm.trans hcontrol)
  have hnewline := hne '\n' (by decide)
  have hreturn := hne '\r' (by decide)
  have htab := hne '\t' (by decide)
  simp [escapeChar, hquote, hbackslash, hnewline, hreturn, htab, hprintable]

theorem escapeChar_code {quote : Char} (hunprintable : isUnprintable c) (hquote : c ≠ quote)
    (hunnamed : ∀ name, (c, name) ∉ charNames) :
    escapeChar quote c = '\\' :: (codeForm c.toNat).1 :: codeDigits c.toNat := by
  have hne (d name : Char) (hd : (d, name) ∈ charNames) : c ≠ d := by
    rintro rfl
    exact hunnamed name hd
  have hbackslash := hne '\\' '\\' (by decide)
  have hnewline := hne '\n' 'n' (by decide)
  have hreturn := hne '\r' 'r' (by decide)
  have htab := hne '\t' 't' (by decide)
  rw [codeDigits_eq_hexDigits]
  simp only [escapeChar, hquote, hbackslash, hnewline, hreturn, htab, or_self, if_false,
    if_pos hunprintable, codeForm]
  split
  case isTrue => rfl
  case isFalse => split <;> rfl

/-- The forms of `Shows` are those of quoted texts. -/
theorem Shows.eq_quoted {shown : Text} (h : Shows c shown) : shown = quoted [c] := by
  cases h with
  | plain hprintable hquote hbackslash =>
    rw [quoted_singleton hquote, escapeChar_plain hprintable hquote hbackslash]
    rfl
  | singleQuote =>
    have hplain : escapeChar '"' '\'' = ['\''] :=
      escapeChar_plain (by decide +kernel) (by decide) (by decide)
    simp [quoted, quoteFor, hplain]
  | named hname =>
    simp only [charNames, List.mem_cons, List.not_mem_nil, or_false, Prod.mk.injEq] at hname
    rcases hname with ⟨rfl, rfl⟩ | ⟨rfl, rfl⟩ | ⟨rfl, rfl⟩ | ⟨rfl, rfl⟩ <;> rfl
  | code hunprintable hunnamed =>
    have hquote := ne_quote_of_isUnprintable hunprintable
    rw [quoted_singleton hquote, escapeChar_code hunprintable hquote hunnamed]
    rfl

theorem exists_shows (c : Char) : ∃ shown, Shows c shown := by
  by_cases hname : ∃ name, (c, name) ∈ charNames
  · obtain ⟨name, hname⟩ := hname
    exact ⟨_, .named hname⟩
  have hunnamed := not_exists.mp hname
  cases hprintable : isUnprintable c with
  | true => exact ⟨_, .code hprintable hunnamed⟩
  | false =>
    by_cases hquote : c = '\''
    · subst hquote
      exact ⟨_, .singleQuote⟩
    · refine ⟨_, .plain hprintable hquote ?_⟩
      rintro rfl
      exact hunnamed '\\' (by decide)

theorem shows_quoted (c : Char) : Shows c (quoted [c]) := by
  obtain ⟨shown, h⟩ := exists_shows c
  exact h.eq_quoted ▸ h

end Quoted

/-- The forms differ in their lengths or in their first characters. -/
theorem Shows.eq_of_eq {c d : Char} {shown other : Text} (h : Shows c shown) (h' : Shows d other)
    (heq : shown = other) : c = d := by
  cases h with
  | plain =>
    cases h' with
    | plain => simpa using heq
    | code => simp [codeDigits_ne_nil] at heq
    | _ => simp at heq
  | singleQuote =>
    cases h' with
    | singleQuote => rfl
    | _ => simp at heq
  | named hname =>
    cases h' with
    | named hname' =>
      simp only [List.cons.injEq, and_true, true_and] at heq
      exact charName_unique hname (heq ▸ hname')
    | code => simp [codeDigits_ne_nil] at heq
    | _ => simp at heq
  | code =>
    cases h' with
    | code =>
      simp only [List.cons.injEq, List.append_cancel_right_eq, true_and] at heq
      exact eq_of_codeDigits_eq heq.2
    | _ => simp [codeDigits_ne_nil] at heq

/-- What is shown of a character determines it. -/
theorem Shows.char_unique {c d : Char} {shown : Text} (h : Shows c shown) (h' : Shows d shown) :
    c = d := h.eq_of_eq h' rfl

end Backtrack
