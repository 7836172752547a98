import Mathlib.Algebra.Order.Group.Nat
import Mathlib.Data.Nat.Find
import Mathlib.Data.Nat.Prime.Basic
import Mathlib.Order.Bounds.Defs

/-!
# Primes

`isPrime` tries the odd factors up to the square root, and `findPrimeLargerThan` tries one odd
candidate after the other. The special case for the numbers below 4 takes 1 for a prime, and the
search begins with an odd number, so that it does not find 2 (`correct_iff`). The square root of a
32-bit number is taken to be exact.

Numbers are 32 bits wide and wrap, so that a loop might miss its end: that it does not is part of
what is proved (`factorLoop_eq`, `findLoop_eq`). The candidates of the search are recorded, since
what the search promises is about the numbers that it skips as well.
-/

namespace TcpServer.Primes

/-- The loop over the factors from `factor` on, if it ends within so many iterations. -/
def factorLoop (x limit : UInt32) : ℕ → UInt32 → Option Bool
  | 0, _ => none
  | fuel + 1, factor =>
    if factor ≤ limit then
      if x % factor = 0 then some false else factorLoop x limit fuel (factor + 2)
    else some true

/-- `isPrime`. -/
def isPrime (x : UInt32) : Option Bool :=
  if x ≠ 0 ∧ x < 4 then some true -- eliminates special-casing 2
  else if x &&& 1 = 0 then some false -- eliminates even numbers above 2
  else
    let limit : UInt32 := .ofNat x.toNat.sqrt
    factorLoop x limit (limit.toNat + 1) 3

/-- The loop over the candidates from `x` on. The result comes with the candidates that were
tried. -/
def findLoop : ℕ → UInt32 → Option (UInt32 × List UInt32)
  | 0, _ => none
  | fuel + 1, x => do
    if ← isPrime x then
      return (x, [x])
    else
      let (p, candidates) ← findLoop fuel (x + 2)
      return (p, x :: candidates)

/-- `findPrimeLargerThan`, which begins with the next odd number. -/
def findPrimeLargerThan (fuel : ℕ) (x : UInt32) : Option (UInt32 × List UInt32) :=
  findLoop fuel (x + ((x % 2) + 1))

/-! ### The factors

The factors up to the limit are tried in steps of two from 3 on, and the limit is small enough for
the step not to wrap. An odd number is a prime if none of its odd factors is up to its square root.
-/

variable {x factor : UInt32}

/-- The test for a factor is divisibility. -/
theorem mod_eq_zero_iff : x % factor = 0 ↔ factor.toNat ∣ x.toNat := by
  rw [← UInt32.toNat_inj, UInt32.toNat_mod, Nat.dvd_iff_mod_eq_zero]
  rfl

/-- A step of two does not wrap below the last two numbers. -/
theorem toNat_add_two (hx : x.toNat + 2 < 2 ^ 32) : (x + 2).toNat = x.toNat + 2 := by
  have htwo : (2 : UInt32).toNat = 2 := rfl
  rw [UInt32.toNat_add, htwo]
  exact Nat.mod_eq_of_lt hx

/-- The loop ends, and it finds no factor exactly if there is none of the parity of the first
one. -/
theorem factorLoop_eq (x limit factor : UInt32) (fuel : ℕ) (hlimit : limit.toNat < 2 ^ 16)
    (hfuel : limit.toNat < factor.toNat + fuel) (hfactor : factor.toNat < 2 ^ 17) :
    ∃ b, factorLoop x limit (fuel + 1) factor = some b ∧
      (b = true ↔ ∀ d, factor.toNat ≤ d → d ≤ limit.toNat → d % 2 = factor.toNat % 2 →
        ¬d ∣ x.toNat) := by
  induction fuel generalizing factor with
  | zero =>
    have hend : ¬factor ≤ limit := by
      rw [UInt32.le_iff_toNat_le]
      omega
    rw [factorLoop, if_neg hend]
    exact ⟨true, rfl, fun _ d hle hle' ↦ absurd (hle.trans hle') (by omega), fun _ ↦ rfl⟩
  | succ fuel ih =>
    rw [factorLoop]
    by_cases hle : factor ≤ limit
    · rw [if_pos hle]
      rw [UInt32.le_iff_toNat_le] at hle
      by_cases hdvd : x % factor = 0
      · rw [if_pos hdvd]
        refine ⟨false, rfl, fun h ↦ absurd h Bool.false_ne_true, fun h ↦ ?_⟩
        exact absurd (mod_eq_zero_iff.1 hdvd) (h factor.toNat (Nat.le_refl _) hle rfl)
      · have hnext : (factor + 2).toNat = factor.toNat + 2 := toNat_add_two (by omega)
        obtain ⟨b, hloop, hb⟩ := ih (factor + 2) (by omega) (by omega)
        rw [if_neg hdvd]
        refine ⟨b, hloop, hb.trans ⟨fun h d hd hd' hpar ↦ ?_, fun h d hd hd' hpar ↦ ?_⟩⟩
        · -- the numbers of one parity from `factor` on are `factor` and those from `factor + 2` on
          rcases Nat.eq_or_lt_of_le hd with heq | hlt
          · rw [← heq]
            exact fun hdiv ↦ hdvd (mod_eq_zero_iff.2 hdiv)
          · exact h d (by omega) hd' (by omega)
        · exact h d (by omega) hd' (by omega)
    · rw [if_neg hle]
      rw [UInt32.le_iff_toNat_le] at hle
      exact ⟨true, rfl, fun _ d hd hd' ↦ absurd (hd.trans hd') (by omega), fun _ ↦ rfl⟩

/-- Of an odd number only the odd factors matter, and only those up to the square root. -/
theorem prime_iff_of_odd {n : ℕ} (hn : 2 ≤ n) (hodd : n % 2 = 1) :
    n.Prime ↔ ∀ d, 3 ≤ d → d ≤ n.sqrt → d % 2 = 1 → ¬d ∣ n := by
  rw [Nat.prime_def_le_sqrt]
  constructor
  · exact fun h d hd hle _ ↦ h.2 d (by omega) hle
  · refine fun h ↦ ⟨hn, fun d hd hle hdvd ↦ ?_⟩
    by_cases hpar : d % 2 = 1
    · exact h d (by omega) hle hpar hdvd
    · have htwo : 2 ∣ n := (Nat.dvd_of_mod_eq_zero (by omega : d % 2 = 0)).trans hdvd
      omega

/-- The test for even numbers. -/
theorem and_one_eq_zero_iff : x &&& 1 = 0 ↔ x.toNat % 2 = 0 := by
  have hone : (1 : UInt32).toNat = 1 := rfl
  rw [← UInt32.toNat_inj, UInt32.toNat_and, hone, Nat.and_one_is_mod]
  rfl

/-- Below 4 every number but 0 is a prime or 1. -/
theorem prime_or_eq_one {n : ℕ} (hpos : n ≠ 0) (hlt : n < 4) : n.Prime ∨ n = 1 := by
  have hcases : n = 1 ∨ n = 2 ∨ n = 3 := by omega
  rcases hcases with rfl | rfl | rfl
  · exact Or.inr rfl
  · exact Or.inl Nat.prime_two
  · exact Or.inl Nat.prime_three

/-- The loop decides an odd number from 3 on, within as many iterations as `isPrime` allows. -/
theorem factorLoop_sqrt (hx : 2 ≤ x.toNat) (hodd : x.toNat % 2 = 1) :
    ∃ b, factorLoop x (.ofNat x.toNat.sqrt) ((UInt32.ofNat x.toNat.sqrt).toNat + 1) 3 = some b ∧
      (b = true ↔ x.toNat.Prime) := by
  have hsqrt : x.toNat.sqrt < 2 ^ 16 := Nat.sqrt_lt'.2 x.toNat_lt
  have hlimit : (UInt32.ofNat x.toNat.sqrt).toNat = x.toNat.sqrt := Nat.mod_eq_of_lt (by omega)
  have hthree : (3 : UInt32).toNat = 3 := rfl
  obtain ⟨b, hloop, hb⟩ := factorLoop_eq x (.ofNat x.toNat.sqrt) 3
    (UInt32.ofNat x.toNat.sqrt).toNat (by omega) (by omega) (by decide)
  rw [hlimit, hthree, ← prime_iff_of_odd hx hodd] at hb
  exact ⟨b, hloop, hb⟩

/-- `isPrime` returns, and for every number but 1 it says whether the number is a prime. -/
theorem isPrime_eq (x : UInt32) :
    ∃ b, isPrime x = some b ∧ (b = true ↔ x.toNat.Prime ∨ x = 1) := by
  have hzero : x ≠ 0 ↔ x.toNat ≠ 0 := by
    rw [ne_eq, ← UInt32.toNat_inj]
    rfl
  have hfour : x < 4 ↔ x.toNat < 4 := UInt32.lt_iff_toNat_lt
  have heq : x = 1 ↔ x.toNat = 1 := by
    rw [← UInt32.toNat_inj]
    rfl
  rw [isPrime, heq]
  by_cases hsmall : x ≠ 0 ∧ x < 4
  · rw [if_pos hsmall]
    rw [hzero, hfour] at hsmall
    exact ⟨true, rfl, fun _ ↦ prime_or_eq_one hsmall.1 hsmall.2, fun _ ↦ rfl⟩
  · rw [if_neg hsmall]
    rw [hzero, hfour] at hsmall
    by_cases heven : x &&& 1 = 0
    · rw [if_pos heven]
      rw [and_one_eq_zero_iff] at heven
      refine ⟨false, rfl, fun h ↦ absurd h Bool.false_ne_true, ?_⟩
      rintro (hprime | h)
      · have htwo := (hprime.eq_one_or_self_of_dvd 2 (Nat.dvd_of_mod_eq_zero heven)).resolve_left
          (by decide)
        omega
      · omega
    · rw [if_neg heven]
      rw [and_one_eq_zero_iff] at heven
      obtain ⟨b, hloop, hb⟩ := factorLoop_sqrt (show 2 ≤ x.toNat by omega) (by omega)
      refine ⟨b, hloop, hb.trans (or_iff_left ?_).symm⟩
      omega

/-- For a number from 2 on, `isPrime` is right. -/
theorem isPrime_eq_decide (hx : 2 ≤ x.toNat) : isPrime x = some (decide x.toNat.Prime) := by
  obtain ⟨b, hb, hiff⟩ := isPrime_eq x
  have hone : x ≠ 1 := by
    rintro rfl
    exact absurd hx (by decide)
  rw [hb, Option.some_inj]
  exact Bool.eq_iff_iff.2 ((hiff.trans (or_iff_left hone)).trans decide_eq_true_iff.symm)

/-! ### The candidates

The search returns the first candidate that `isPrime` accepts, so it is right wherever `isPrime` is
right and the candidates leave no prime out. It comes to an end as long as there is a prime above
`x` that has 32 bits; without one the candidates would wrap.
-/

/-- The loop ends at the first prime among its candidates, and no candidate wraps. -/
theorem findLoop_eq {k : ℕ} (hx : 2 ≤ x.toNat) (hk : x.toNat + 2 * k < 2 ^ 32)
    (hprime : (x.toNat + 2 * k).Prime) (hleast : ∀ j < k, ¬(x.toNat + 2 * j).Prime) :
    ∃ p candidates, findLoop (k + 1) x = some (p, candidates) ∧ p.toNat = x.toNat + 2 * k ∧
      candidates.map UInt32.toNat = List.range' x.toNat (k + 1) 2 := by
  induction k generalizing x with
  | zero =>
    have hx' : decide x.toNat.Prime = true := decide_eq_true hprime
    rw [findLoop, isPrime_eq_decide hx, hx']
    exact ⟨x, [x], rfl, rfl, rfl⟩
  | succ k ih =>
    have hx' : decide x.toNat.Prime = false := decide_eq_false (hleast 0 (Nat.succ_pos k))
    have hnext : (x + 2).toNat = x.toNat + 2 := toNat_add_two (by omega)
    have hshift : ∀ j, (x + 2).toNat + 2 * j = x.toNat + 2 * (j + 1) := fun j ↦ by omega
    obtain ⟨p, candidates, hloop, hp, hcandidates⟩ := @ih (x + 2) (by omega) (by omega)
      (by rw [hshift]; exact hprime) fun j hj ↦ by rw [hshift]; exact hleast (j + 1) (by omega)
    refine ⟨p, x :: candidates, ?_, by rw [hp, hshift], ?_⟩
    · rw [findLoop, isPrime_eq_decide hx, hx']
      show (findLoop (k + 1) (x + 2)).bind _ = _
      rw [hloop]
      rfl
    · rw [List.map_cons, hcandidates, hnext]
      rfl

/-- The search returns the least prime above `x`, and its candidates are the odd numbers from `x` on
up to that prime. -/
def FindsLeast (x : UInt32) : Prop :=
  ∃ fuel p candidates n, findPrimeLargerThan fuel x = some (p, candidates) ∧
    IsLeast {q : ℕ | q.Prime ∧ x.toNat < q} p.toNat ∧
    candidates.map UInt32.toNat = List.range' (x.toNat + (x.toNat % 2 + 1)) n 2

/-- Behind 2 the primes are among the odd numbers. -/
theorem findsLeast_of_two_le (hx : 2 ≤ x.toNat) {q : ℕ} (hq : q.Prime) (hxq : x.toNat < q)
    (hlt : q < 2 ^ 32) : FindsLeast x := by
  have hexists : ∃ p : ℕ, p.Prime ∧ x.toNat < p := ⟨q, hq, hxq⟩
  obtain ⟨p, hp, hleast⟩ : ∃ p : ℕ, (p.Prime ∧ x.toNat < p) ∧ ∀ r : ℕ, r.Prime ∧ x.toNat < r →
      p ≤ r :=
    ⟨Nat.find hexists, Nat.find_spec hexists, fun r hr ↦ Nat.find_min' hexists hr⟩
  have hpq : p ≤ q := hleast q ⟨hq, hxq⟩
  have hodd : p % 2 = 1 := hp.1.eq_two_or_odd.resolve_left (by omega)
  have hstart : (x + ((x % 2) + 1)).toNat = x.toNat + (x.toNat % 2 + 1) := by
    have hone : (1 : UInt32).toNat = 1 := rfl
    have htwo : (2 : UInt32).toNat = 2 := rfl
    rw [UInt32.toNat_add, UInt32.toNat_add, UInt32.toNat_mod, hone, htwo]
    omega
  obtain ⟨k, hk⟩ : ∃ k, p = x.toNat + (x.toNat % 2 + 1) + 2 * k :=
    ⟨(p - (x.toNat + (x.toNat % 2 + 1))) / 2, by omega⟩
  obtain ⟨r, candidates, hloop, hr, hcandidates⟩ := @findLoop_eq (x + ((x % 2) + 1)) k (by omega)
    (by omega) (by rw [hstart, ← hk]; exact hp.1) fun j hj hprime ↦ by
      have hle := hleast _ ⟨hprime, by omega⟩
      omega
  rw [hstart, ← hk] at hr
  rw [hstart] at hcandidates
  refine ⟨k + 1, r, candidates, k + 1, hloop, ?_, hcandidates⟩
  rw [hr]
  exact ⟨hp, fun r hr ↦ hleast r hr⟩

/-- Below 2 the search ends at its first candidate, 1 or 3. -/
theorem findPrimeLargerThan_of_lt_two (hx : x.toNat < 2) (fuel : ℕ) :
    findPrimeLargerThan (fuel + 1) x = some (x + ((x % 2) + 1), [x + ((x % 2) + 1)]) := by
  have hcases : x = 0 ∨ x = 1 := by
    rw [← UInt32.toNat_inj, ← UInt32.toNat_inj]
    show x.toNat = 0 ∨ x.toNat = 1
    omega
  rcases hcases with rfl | rfl
  · rfl
  · rfl

/-- From 0 and from 1 the least prime is 2, which is no candidate. -/
theorem not_findsLeast_of_lt_two (hx : x.toNat < 2) : ¬FindsLeast x := by
  rintro ⟨fuel, p, candidates, n, hfind, hleast, -⟩
  match fuel with
  | 0 => exact absurd hfind.symm (Option.some_ne_none _)
  | fuel + 1 =>
    rw [findPrimeLargerThan_of_lt_two hx] at hfind
    obtain ⟨rfl, -⟩ := Prod.mk.inj (Option.some.inj hfind)
    -- the result is odd, but 2 is the least prime above `x`
    have htwo := hleast.2 ⟨Nat.prime_two, hx⟩
    have hprime := hleast.1.1.two_le
    have hcases : x = 0 ∨ x = 1 := by
      rw [← UInt32.toNat_inj, ← UInt32.toNat_inj]
      show x.toNat = 0 ∨ x.toNat = 1
      omega
    rcases hcases with rfl | rfl
    · exact absurd hprime (by decide)
    · exact absurd htwo (by decide)

/-- `isPrime` is right for all numbers but 1, and `findPrimeLargerThan` for those from 2 on. -/
theorem correct_iff (x : UInt32) :
    (∃ b, isPrime x = some b ∧ ((b = true ↔ x.toNat.Prime) ↔ x ≠ 1)) ∧
    (((∃ q : ℕ, q.Prime ∧ x.toNat < q ∧ q < 2 ^ 32) → FindsLeast x) ↔ 2 ≤ x.toNat) := by
  constructor
  · obtain ⟨b, hb, hiff⟩ := isPrime_eq x
    refine ⟨b, hb, ?_⟩
    constructor
    · rintro h rfl
      exact Nat.not_prime_one (h.1 (hiff.2 (Or.inr rfl)))
    · exact fun hone ↦ hiff.trans (or_iff_left hone)
  · constructor
    · intro h
      by_contra hlt
      have hfive : x.toNat < 5 := by omega
      exact not_findsLeast_of_lt_two (Nat.not_le.1 hlt) (h ⟨5, by decide, hfive, by decide⟩)
    · rintro hx ⟨q, hq, hxq, hlt⟩
      exact findsLeast_of_two_le hx hq hxq hlt

/-- 1 is not a prime, and neither is it the least prime above 0; the least prime above 1 is 2. -/
theorem isPrime_one :
    isPrime 1 = some true ∧ findPrimeLargerThan 1 0 = some (1, [1]) ∧
      findPrimeLargerThan 1 1 = some (3, [3]) ∧ ¬Nat.Prime 1 ∧ Nat.Prime 2 :=
  ⟨rfl, rfl, rfl, Nat.not_prime_one, Nat.prime_two⟩

end TcpServer.Primes
