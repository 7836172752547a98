import Mathlib.Algebra.Ring.Nat
import Mathlib.Data.List.Basic
import Mathlib.Data.List.Induction
import Mathlib.Tactic.Common

/-!
# Numerals in text

A text that is put together from numerals and separators can be taken apart again, because numerals
are injective (`toDigits_inj`) and contain no separator (`isAlphanum_of_mem_toDigits`). The two
rules for separators take a text apart at the first one (`append_cons_inj_left`) and at the last one
(`append_cons_inj_right`).

A numeral ends with its low digits (`toDigits_eq_append`), and a short one is filled up with zeros
(`replicate_append_toDigits`). Numerals are just the lists of digits without a superfluous zero
(`isNumeral_toDigits`, `IsNumeral.toDigits_eq`).

The numerals are those of `Nat.toDigits`, to any base up to 16, which is what is printed of an
integer in decimal or hexadecimal. That a numeral has at most as many digits as its number needs
(`length_toDigits_le`) bounds the buffers in which it is written.
-/

namespace TcpServer.Numerals

variable {α : Type*}

/-! ### Separators

A separator that is in none of the parts around it marks where they end. It is enough that one of
two parts has none, if it is known which.
-/

/-- What is before and behind the first separator. -/
theorem append_cons_inj_left {c : α} {x y z w : List α} (hx : c ∉ x) (hy : c ∉ y) :
    x ++ c :: z = y ++ c :: w ↔ x = y ∧ z = w := by
  induction x generalizing y with
  | nil =>
    cases y with
    | nil => simp
    | cons b y =>
      refine ⟨fun h ↦ absurd ((List.cons.inj h).1 ▸ List.mem_cons_self) hy, fun h ↦ nomatch h.1⟩
  | cons a x ih =>
    have hx' := not_or.1 (List.mem_cons.not.1 hx)
    cases y with
    | nil =>
      refine ⟨fun h ↦ absurd (List.cons.inj h).1.symm hx'.1, fun h ↦ nomatch h.1⟩
    | cons b y =>
      have hy' := not_or.1 (List.mem_cons.not.1 hy)
      rw [List.cons_append, List.cons_append, List.cons.injEq, ih hx'.2 hy'.2, List.cons.injEq,
        and_assoc]

/-- What is before and behind the last separator. -/
theorem append_cons_inj_right {c : α} {x y z w : List α} (hz : c ∉ z) (hw : c ∉ w) :
    x ++ c :: z = y ++ c :: w ↔ x = y ∧ z = w := by
  have hrev : z.reverse ++ c :: x.reverse = w.reverse ++ c :: y.reverse ↔
      z.reverse = w.reverse ∧ x.reverse = y.reverse :=
    append_cons_inj_left (by rwa [List.mem_reverse]) (by rwa [List.mem_reverse])
  rw [List.reverse_inj, List.reverse_inj] at hrev
  rw [← List.reverse_inj, and_comm, ← hrev]
  simp

/-! ### Numerals

A digit is a character below the base. Digits of different values are different, and so are
numerals.
-/

/-- Digits are told apart. -/
theorem digitChar_inj {m n : ℕ} (hm : m < 16) (hn : n < 16) (h : m.digitChar = n.digitChar) :
    m = n := by
  have hall : ∀ m < 16, ∀ n < 16, m.digitChar = n.digitChar → m = n := by decide
  exact hall m hm n hn h

/-- Every character of a numeral is a digit of the base. -/
theorem exists_digit_of_mem_toDigits {b n : ℕ} (hb : 1 < b) {c : Char} (h : c ∈ Nat.toDigits b n) :
    ∃ d < b, c = d.digitChar := by
  induction n using Nat.strongRecOn with
  | ind n ih =>
    rw [Nat.toDigits_eq_if hb] at h
    split_ifs at h with hlt
    · exact ⟨n, hlt, List.mem_singleton.1 h⟩
    · rcases List.mem_append.1 h with h | h
      · exact ih _ (Nat.div_lt_self (by omega) hb) h
      · exact ⟨n % b, Nat.mod_lt _ (by omega), List.mem_singleton.1 h⟩

theorem isAlphanum_of_mem_toDigits {b n : ℕ} (hb : 1 < b) (hb' : b ≤ 16) {c : Char}
    (h : c ∈ Nat.toDigits b n) : c.isAlphanum := by
  obtain ⟨d, hd, rfl⟩ := exists_digit_of_mem_toDigits hb h
  have hall : ∀ d < 16, d.digitChar.isAlphanum := by decide
  exact hall d (by omega)

/-- A character that is no letter and no digit is in no numeral. -/
theorem notMem_toDigits {b n : ℕ} (hb : 1 < b) (hb' : b ≤ 16) {c : Char} (hc : ¬ c.isAlphanum) :
    c ∉ Nat.toDigits b n :=
  fun h ↦ hc (isAlphanum_of_mem_toDigits hb hb' h)

/-- So are numerals. -/
theorem toDigits_inj {b m n : ℕ} (hb : 1 < b) (hb' : b ≤ 16) :
    Nat.toDigits b m = Nat.toDigits b n ↔ m = n := by
  refine ⟨fun h ↦ ?_, fun h ↦ h ▸ rfl⟩
  induction m using Nat.strongRecOn generalizing n with
  | ind m ih =>
    rw [Nat.toDigits_eq_if (n := m) hb, Nat.toDigits_eq_if (n := n) hb] at h
    split_ifs at h with hm hn hn
    · exact digitChar_inj (by omega) (by omega) (List.singleton_inj.1 h)
    · have hlen := congrArg List.length h
      have hpos : 0 < (Nat.toDigits b (n / b)).length := Nat.length_toDigits_pos
      rw [List.length_append, List.length_singleton, List.length_singleton] at hlen
      omega
    · have hlen := congrArg List.length h
      have hpos : 0 < (Nat.toDigits b (m / b)).length := Nat.length_toDigits_pos
      rw [List.length_append, List.length_singleton, List.length_singleton] at hlen
      omega
    · obtain ⟨hdiv, hmod⟩ := List.append_inj' h rfl
      have hdiv := ih _ (Nat.div_lt_self (by omega) hb) hdiv
      have hmod := digitChar_inj (Nat.lt_of_lt_of_le (Nat.mod_lt _ (by omega)) hb')
        (Nat.lt_of_lt_of_le (Nat.mod_lt _ (by omega)) hb') (List.singleton_inj.1 hmod)
      rw [← Nat.div_add_mod m b, hdiv, hmod, Nat.div_add_mod]

/-- Numbers with the same last `k` digits agree up to there. -/
theorem mod_pow_eq_of_digits {b k m n : ℕ} (h : ∀ i < k, m / b ^ i % b = n / b ^ i % b) :
    m % b ^ k = n % b ^ k := by
  induction k with
  | zero => rw [Nat.pow_zero, Nat.mod_one, Nat.mod_one]
  | succ k ih =>
    rw [Nat.mod_pow_succ, Nat.mod_pow_succ, ih fun i hi ↦ h i (Nat.lt_succ_of_lt hi),
      h k (Nat.lt_succ_self k)]

/-! ### Low digits

The last digits of a number depend on the number modulo a power of the base, and are the same with
zeros in front. A fixed number of digits is what is printed of a fraction.
-/

/-- The last `k` digits, with leading zeros. -/
def lowDigits (b : ℕ) : ℕ → ℕ → List Char
  | 0, _ => []
  | k + 1, n => lowDigits b k (n / b) ++ [Nat.digitChar (n % b)]

@[simp] theorem length_lowDigits (b k n : ℕ) : (lowDigits b k n).length = k := by
  induction k generalizing n with
  | zero => rfl
  | succ k ih => rw [lowDigits, List.length_append, ih, List.length_singleton]

theorem lowDigits_zero (b k : ℕ) : lowDigits b k 0 = List.replicate k '0' := by
  induction k with
  | zero => rfl
  | succ k ih =>
    rw [lowDigits, Nat.zero_div, ih, Nat.zero_mod, List.replicate_succ']
    rfl

theorem lowDigits_succ_left (b k n : ℕ) :
    lowDigits b (k + 1) n = Nat.digitChar (n / b ^ k % b) :: lowDigits b k n := by
  induction k generalizing n with
  | zero => rw [lowDigits, lowDigits, lowDigits, Nat.pow_zero, Nat.div_one, List.nil_append]
  | succ k ih =>
    rw [lowDigits, ih, lowDigits, Nat.div_div_eq_div_mul, ← Nat.pow_succ']
    rfl

/-- The numeral of a number that is great enough ends with its last digits. -/
theorem toDigits_eq_append {b k n : ℕ} (hb : 1 < b) (h : b ^ k ≤ n) :
    Nat.toDigits b n = Nat.toDigits b (n / b ^ k) ++ lowDigits b k n := by
  induction k generalizing n with
  | zero => rw [Nat.pow_zero, Nat.div_one, lowDigits, List.append_nil]
  | succ k ih =>
    have hpos : 0 < b ^ k := Nat.pow_pos (Nat.zero_lt_of_lt hb)
    have hbase : b ≤ n := Nat.le_trans (Nat.le_mul_of_pos_left b hpos) h
    have hdiv : b ^ k ≤ n / b := (Nat.le_div_iff_mul_le (Nat.zero_lt_of_lt hb)).2 h
    rw [Nat.toDigits_of_base_le hb hbase, ih hdiv, Nat.div_div_eq_div_mul, ← Nat.pow_succ',
      lowDigits, List.append_assoc]

/-- A numeral filled up with zeros is the last digits of its number. -/
theorem replicate_append_toDigits {b k n : ℕ} (hb : 1 < b) (hk : 0 < k) (h : n < b ^ k) :
    List.replicate (k - (Nat.toDigits b n).length) '0' ++ Nat.toDigits b n = lowDigits b k n := by
  induction k generalizing n with
  | zero => exact absurd hk (Nat.lt_irrefl 0)
  | succ k ih =>
    rcases Nat.lt_or_ge n b with hlt | hge
    · rw [Nat.toDigits_of_lt_base hlt, lowDigits, Nat.div_eq_of_lt hlt, lowDigits_zero,
        Nat.mod_eq_of_lt hlt]
      rfl
    · have hk : 0 < k := by
        rcases Nat.eq_zero_or_pos k with rfl | hk
        · rw [Nat.zero_add, Nat.pow_one] at h
          exact absurd h (Nat.not_lt.2 hge)
        · exact hk
      have hdiv : n / b < b ^ k := Nat.div_lt_of_lt_mul (Nat.pow_succ' ▸ h)
      rw [Nat.toDigits_of_base_le hb hge, lowDigits, ← ih hk hdiv, List.length_append,
        List.length_singleton, Nat.add_sub_add_right, List.append_assoc]

/-- A number below a power of the base has no more digits than that. -/
theorem length_toDigits_le {b k n : ℕ} (hb : 1 < b) (hk : 0 < k) (h : n < b ^ k) :
    (Nat.toDigits b n).length ≤ k := by
  have hlen := congrArg List.length (replicate_append_toDigits hb hk h)
  rw [List.length_append, length_lowDigits] at hlen
  omega

/-! ### Canonical numerals

Each number has one numeral without a superfluous zero, so a text of this form is known from its
value.
-/

/-- Decimal digits, without a zero in front of others. -/
structure IsNumeral (t : List Char) : Prop where
  /-- There is a digit. -/
  ne_nil : t ≠ []
  /-- All characters are digits. -/
  isDigit : ∀ c ∈ t, c.isDigit = true
  /-- Only zero begins with a zero. -/
  eq_of_head : t.head? = some '0' → t = ['0']

instance (t : List Char) : Decidable (IsNumeral t) :=
  decidable_of_iff (t ≠ [] ∧ t.all Char.isDigit = true ∧ (t.head? = some '0' → t = ['0']))
    ⟨fun h ↦ ⟨h.1, List.all_eq_true.1 h.2.1, h.2.2⟩,
      fun h ↦ ⟨h.ne_nil, List.all_eq_true.2 h.isDigit, h.eq_of_head⟩⟩

/-- A number that is not zero does not begin with one. -/
theorem head?_toDigits_ne {n : ℕ} (hn : 0 < n) : (Nat.toDigits 10 n).head? ≠ some '0' := by
  induction n using Nat.strongRecOn with
  | ind n ih =>
    rcases Nat.lt_or_ge n 10 with hlt | hge
    · have hall : ∀ m < 10, 0 < m → m.digitChar ≠ '0' := by decide
      rw [Nat.toDigits_of_lt_base hlt]
      exact fun h ↦ hall n hlt hn (Option.some_inj.1 h)
    · have hne : Nat.toDigits 10 (n / 10) ≠ [] := Nat.toDigits_ne_nil
      rw [Nat.toDigits_of_base_le (by decide) hge, List.head?_append_of_ne_nil _ hne]
      exact ih _ (by omega) (by omega)

/-- The numeral of a number is of this form. -/
theorem isNumeral_toDigits (n : ℕ) : IsNumeral (Nat.toDigits 10 n) where
  ne_nil := Nat.toDigits_ne_nil
  isDigit _ hc := Nat.isDigit_of_mem_toDigits (by decide) (by decide) hc
  eq_of_head h := by
    rcases Nat.eq_zero_or_pos n with rfl | hn
    · rfl
    · exact absurd h (head?_toDigits_ne hn)

theorem digitChar_toNat_sub {c : Char} (hc : c.isDigit = true) :
    c.toNat - 48 < 10 ∧ (c.toNat - 48).digitChar = c := by
  have hrange : 48 ≤ c.toNat ∧ c.toNat ≤ 57 := by
    rw [Char.isDigit, Bool.and_eq_true, decide_eq_true_iff, decide_eq_true_iff] at hc
    exact hc
  refine ⟨by omega, Char.toNat_inj.1 ?_⟩
  rw [Nat.toNat_digitChar_of_lt_ten (by omega)]
  omega

/-- A canonical numeral is the numeral of its value. The induction takes the last digit off. -/
theorem IsNumeral.toDigits_eq {t : List Char} (h : IsNumeral t) :
    Nat.toDigits 10 (Nat.ofDigitChars 10 t 0) = t := by
  induction t using List.reverseRecOn with
  | nil => exact absurd rfl h.ne_nil
  | append_singleton s c ih =>
    obtain ⟨hlt, hchar⟩ := digitChar_toNat_sub (h.isDigit c (by simp))
    rw [Nat.ofDigitChars_append, Nat.ofDigitChars_cons, Nat.ofDigitChars_nil]
    show Nat.toDigits 10 (10 * Nat.ofDigitChars 10 s 0 + (c.toNat - 48)) = s ++ [c]
    by_cases hs : s = []
    · rw [hs, Nat.ofDigitChars_nil, Nat.mul_zero, Nat.zero_add, Nat.toDigits_of_lt_base hlt, hchar]
      rfl
    · have hhead : s.head? ≠ some '0' := by
        intro hzero
        have heq := h.eq_of_head (by rw [List.head?_append_of_ne_nil _ hs, hzero])
        have hlen := congrArg List.length heq
        rw [List.length_append, List.length_singleton, List.length_singleton] at hlen
        exact hs (List.eq_nil_of_length_eq_zero (by omega))
      have hnum : Nat.toDigits 10 (Nat.ofDigitChars 10 s 0) = s :=
        ih ⟨hs, fun d hd ↦ h.isDigit d (List.mem_append_left _ hd), fun hzero ↦ absurd hzero hhead⟩
      have hpos : 0 < Nat.ofDigitChars 10 s 0 := by
        rcases Nat.eq_zero_or_pos (Nat.ofDigitChars 10 s 0) with hzero | hpos
        · rw [hzero] at hnum
          rw [← hnum] at hhead
          exact absurd rfl hhead
        · exact hpos
      rw [← Nat.toDigits_append_toDigits (by decide) hpos hlt, hnum, Nat.toDigits_of_lt_base hlt,
        hchar]

end TcpServer.Numerals
