import CommandLine.Number.Integer
import CommandLine.Proofs.Text.Lowercase

/-! # Starts of decimal texts

    The decimal text of a number with several digits is that of its tenth with one digit more, away
    from zero for an integer (`intDigits_withDigit`). So what a decimal text starts with is a
    decimal text too, unless it is empty or a lone sign, and no number but zero has a text that
    starts with the one of zero (`exists_intDigits_of_prefix`). -/

namespace CommandLine.Number

open Text

/-! ## Natural numbers -/

theorem digits_of_lt {d : Nat} (h : d < 10) : digits d = [digitChar d] := by
  rw [digits, if_pos h]

theorem digits_append_digit {n d : Nat} (hn : n ≠ 0) (hd : d < 10) :
    digits (10 * n + d) = digits n ++ [digitChar d] := by
  have hfront : (10 * n + d) / 10 = n := by omega
  have hlast : (10 * n + d) % 10 = d := by omega
  rw [digits, if_neg (by omega), hfront, hlast]

/-- What the digits of a number start with are the digits of a number. It is smaller, and not zero
    in front of others. -/
theorem exists_digits_of_prefix {start : List Char} {n : Nat} (h : start <+: digits n)
    (hsome : start ≠ []) : ∃ m, start = digits m ∧ m ≤ n ∧ (m = 0 → n = 0) := by
  fun_induction digits n with
  | case1 n hn =>
      have hone : start = [digitChar n] :=
        h.eq_of_length_le (List.length_pos_iff.mpr hsome)
      exact ⟨n, hone.trans (digits_of_lt hn).symm, Nat.le_refl n, id⟩
  | case2 n hn ih =>
      rcases List.prefix_concat_iff.mp h with hwhole | hstart
      · have hdigits : digits n = digits (n / 10) ++ [digitChar (n % 10)] := by
          rw [digits.eq_def n, if_neg hn]
        exact ⟨n, hwhole.trans hdigits.symm, Nat.le_refl n, id⟩
      · obtain ⟨m, hm, hle, hzero⟩ := ih hstart
        exact ⟨m, hm, by omega, fun h0 => by have := hzero h0; omega⟩

/-- The last of the digits of a number is a digit. -/
theorem exists_digits_concat (n : Nat) : ∃ front, ∃ d < 10, digits n = front ++ [digitChar d] := by
  rw [digits]
  split
  · next h => exact ⟨[], n, h, rfl⟩
  · exact ⟨digits (n / 10), n % 10, Nat.mod_lt n (by decide), rfl⟩

theorem digits_injective {m n : Nat} (h : digits m = digits n) : m = n := by
  rw [← ofDigits_digits m, h, ofDigits_digits]

theorem showNat_injective {m n : Nat} (h : showNat m = showNat n) : m = n :=
  digits_injective (String.ofList_injective h)

/-! ## Integers -/

/-- An integer with one digit more, away from zero. -/
def withDigit (n : Int) (d : Nat) : Int :=
  if n < 0 then 10 * n - d else 10 * n + d

theorem intDigits_of_neg {n : Int} (h : n < 0) : intDigits n = '-' :: digits n.natAbs := by
  rw [intDigits, if_pos h]

theorem intDigits_of_nonneg {n : Int} (h : 0 ≤ n) : intDigits n = digits n.natAbs := by
  rw [intDigits, if_neg (by omega)]

theorem exists_intDigits_concat (n : Int) :
    ∃ front, ∃ d < 10, intDigits n = front ++ [digitChar d] := by
  obtain ⟨front, d, hd, hdigits⟩ := exists_digits_concat n.natAbs
  rw [intDigits, hdigits]
  split
  · exact ⟨'-' :: front, d, hd, rfl⟩
  · exact ⟨front, d, hd, rfl⟩

theorem intDigits_ne_sign (n : Int) : intDigits n ≠ ['-'] := by
  intro hlone
  have hread := readSigned_intDigits n
  rw [hlone] at hread
  cases hread

/-- Integers with the same text are the same. -/
theorem intDigits_injective {m n : Int} (h : intDigits m = intDigits n) : m = n := by
  have hread := readSigned_intDigits m
  rw [h, readSigned_intDigits] at hread
  exact (Option.some.inj hread).symm

theorem showInt_injective {m n : Int} (h : showInt m = showInt n) : m = n :=
  intDigits_injective (String.ofList_injective h)

theorem natAbs_withDigit (n : Int) (d : Nat) : (withDigit n d).natAbs = 10 * n.natAbs + d := by
  rw [withDigit]
  split <;> omega

theorem withDigit_neg_iff (n : Int) (d : Nat) : withDigit n d < 0 ↔ n < 0 := by
  rw [withDigit]
  split <;> omega

/-- Behind the text of an integer other than zero, a digit makes the text of another. -/
theorem intDigits_withDigit {n : Int} {d : Nat} (hn : n ≠ 0) (hd : d < 10) :
    intDigits (withDigit n d) = intDigits n ++ [digitChar d] := by
  have hdigits : digits (withDigit n d).natAbs = digits n.natAbs ++ [digitChar d] := by
    rw [natAbs_withDigit, digits_append_digit (Int.natAbs_ne_zero.mpr hn) hd]
  rw [intDigits, intDigits, hdigits]
  by_cases hneg : n < 0
  · rw [if_pos hneg, if_pos ((withDigit_neg_iff n d).mpr hneg)]
    rfl
  · rw [if_neg hneg, if_neg fun h => hneg ((withDigit_neg_iff n d).mp h)]

/-- What the text of an integer starts with is the text of an integer, unless it is empty or a sign.
    That integer is between zero and the other, and not zero in front of digits. -/
theorem exists_intDigits_of_prefix {start : List Char} {v : Int} (h : start <+: intDigits v)
    (hsome : start ≠ []) (hsign : start ≠ ['-']) :
    ∃ n, start = intDigits n ∧ (0 ≤ n ∧ n ≤ v ∨ v ≤ n ∧ n ≤ 0) ∧ (n = 0 → v = 0) := by
  rcases Int.lt_or_le v 0 with hneg | hnonneg
  · rw [intDigits_of_neg hneg] at h
    obtain ⟨c, behind, rfl⟩ := List.exists_cons_of_ne_nil hsome
    obtain ⟨rfl, hbehind⟩ := List.cons_prefix_cons.mp h
    have hdigits : behind ≠ [] := fun hnil => hsign (by rw [hnil])
    obtain ⟨m, rfl, hle, hzero⟩ := exists_digits_of_prefix hbehind hdigits
    have hm : m ≠ 0 := fun h0 => by have := hzero h0; omega
    have habs : (-(m : Int)).natAbs = m := by omega
    refine ⟨-(m : Int), ?_, Or.inr ⟨by omega, by omega⟩, by omega⟩
    rw [intDigits_of_neg (by omega), habs]
  · rw [intDigits_of_nonneg hnonneg] at h
    obtain ⟨m, rfl, hle, hzero⟩ := exists_digits_of_prefix h hsome
    refine ⟨m, ?_, Or.inl ⟨by omega, by omega⟩, fun h0 => by have := hzero (by omega); omega⟩
    rw [intDigits_of_nonneg (by omega)]
    rfl

/-- An integer between zero and one of 64 bits has 64 bits. -/
theorem fitsInt64_of_between {n v : Int} (hv : fitsInt64 v = true)
    (h : 0 ≤ n ∧ n ≤ v ∨ v ≤ n ∧ n ≤ 0) : fitsInt64 n = true := by
  have hmin : minInt64 ≤ 0 := by decide
  have hmax : 0 ≤ maxInt64 := by decide
  simp only [fitsInt64, Bool.and_eq_true, decide_eq_true_eq] at hv ⊢
  omega

/-! ## Signs and digits -/

theorem toNat_of_isDigit {c : Char} (h : c.isDigit = true) : 48 ≤ c.toNat ∧ c.toNat ≤ 57 :=
  Char.isDigit_iff_toNat.mp h

theorem toNat_of_mem_intDigits {n : Int} {c : Char} (h : c ∈ intDigits n) :
    45 ≤ c.toNat ∧ c.toNat ≤ 57 := by
  have hdigit (hc : c ∈ digits n.natAbs) : 45 ≤ c.toNat ∧ c.toNat ≤ 57 := by
    have hbounds := toNat_of_isDigit (isDigit_of_mem_digits hc)
    omega
  rw [intDigits] at h
  split at h
  · rcases List.mem_cons.mp h with rfl | hc
    · decide
    · exact hdigit hc
  · exact hdigit h

theorem uncased_intDigits (n : Int) : Uncased (intDigits n) := by
  intro c hc
  have hbounds := toNat_of_mem_intDigits hc
  omega

theorem uncased_of_readDigits {cs : List Char} (h : readDigits cs ≠ none) : Uncased cs := by
  have hdigits : cs.all Char.isDigit = true := by
    cases hall : cs.all Char.isDigit with
    | true => rfl
    | false =>
        refine absurd ?_ h
        rw [readDigits, hall, Bool.not_false, Bool.or_true, if_pos rfl]
  intro c hc
  have hbounds := toNat_of_isDigit (List.all_eq_true.mp hdigits c hc)
  omega

/-- What is read as an integer is signs and digits. -/
theorem uncased_of_readSigned {cs : List Char} {n : Int} (h : readSigned cs = some n) :
    Uncased cs := by
  unfold readSigned at h
  split at h
  · refine List.forall_mem_cons.mpr ⟨by decide, uncased_of_readDigits fun hnone => ?_⟩
    rw [hnone] at h
    cases h
  · refine List.forall_mem_cons.mpr ⟨by decide, uncased_of_readDigits fun hnone => ?_⟩
    rw [hnone] at h
    cases h
  · refine uncased_of_readDigits fun hnone => ?_
    rw [hnone] at h
    cases h

/-- The sign of an integer is the first character of its text. -/
theorem head?_intDigits (n : Int) : (intDigits n).head? = some '-' ↔ n < 0 := by
  constructor
  · intro h
    refine Int.lt_of_not_ge fun hnonneg => ?_
    rw [intDigits_of_nonneg hnonneg] at h
    have hdigit := isDigit_of_mem_digits (List.mem_of_mem_head? h)
    cases hdigit
  · intro h
    rw [intDigits_of_neg h]
    rfl

end CommandLine.Number
