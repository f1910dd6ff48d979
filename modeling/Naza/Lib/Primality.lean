import Mathlib.NumberTheory.LucasPrimality
import Mathlib.Tactic

/-!
# Certificates of primes

A number is prime when the powers of a witness say so and the factors of its predecessor are known
to be prime.  Powers are taken by repeated squaring, so that certificates can be evaluated.
-/

namespace Lib

/-- `a ^ n` modulo `p`, for an exponent of a number of bits. -/
def powMod (p : ℕ) : ℕ → ℕ → ℕ → ℕ
  | 0, _, _ => 1 % p
  | bits + 1, a, n =>
    let rest := powMod p bits (a * a % p) (n / 2)
    if n % 2 = 1 then a * rest % p else rest

theorem powMod_eq {p bits a n : ℕ} (hn : n < 2 ^ bits) : powMod p bits a n = a ^ n % p := by
  induction bits generalizing a n with
  | zero =>
    obtain rfl : n = 0 := by simpa using hn
    rw [powMod, pow_zero]
  | succ bits ih =>
    have hhalf : n / 2 < 2 ^ bits := by
      rw [pow_succ] at hn
      omega
    have hsquare : powMod p bits (a * a % p) (n / 2) = a ^ (2 * (n / 2)) % p := by
      rw [ih hhalf, ← Nat.pow_mod, pow_mul, sq]
    rw [powMod]
    simp only [hsquare]
    split
    · next hodd =>
      rw [Nat.mul_mod_mod, ← pow_succ', show 2 * (n / 2) + 1 = n by omega]
    · next heven => rw [show 2 * (n / 2) = n by omega]

/-- The factors of `p - 1` are `factors`, and `a` has order `p - 1`. -/
def Certifies (p a bits : ℕ) (factors : List ℕ) : Prop :=
  1 < p ∧ p < 2 ^ bits ∧ factors.prod = p - 1 ∧ powMod p bits a (p - 1) = 1 ∧
    ∀ q ∈ factors, powMod p bits a ((p - 1) / q) ≠ 1

instance decidableCertifies (p a bits : ℕ) (factors : List ℕ) :
    Decidable (Certifies p a bits factors) :=
  inferInstanceAs (Decidable (1 < p ∧ p < 2 ^ bits ∧ factors.prod = p - 1 ∧
    powMod p bits a (p - 1) = 1 ∧ ∀ q ∈ factors, powMod p bits a ((p - 1) / q) ≠ 1))

theorem Certifies.prime {p a bits : ℕ} {factors : List ℕ} (h : Certifies p a bits factors)
    (hprime : ∀ q ∈ factors, q.Prime) : p.Prime := by
  obtain ⟨hone, hlt, hprod, hpow, hne⟩ := h
  have hcast : ∀ n < 2 ^ bits, (a : ZMod p) ^ n = 1 ↔ powMod p bits a n = 1 := by
    intro n hn
    rw [powMod_eq hn, ← Nat.cast_pow, ← Nat.cast_one, ZMod.natCast_eq_natCast_iff',
      Nat.mod_eq_of_lt hone]
  refine lucas_primality p a ((hcast _ (by omega)).2 hpow) fun q hq hdvd hqpow ↦ ?_
  obtain ⟨r, hr, hqr⟩ := (Prime.dvd_prod_iff hq.prime).1 (hprod ▸ hdvd)
  obtain rfl := (Nat.prime_dvd_prime_iff_eq hq (hprime r hr)).1 hqr
  exact hne q hr ((hcast _ ((Nat.div_le_self _ _).trans_lt (by omega))).1 hqpow)

/-- A number, an element, the bits of the number and the factors of its predecessor. -/
abbrev Certificate := ℕ × ℕ × ℕ × List ℕ

/-- Certificates whose factors are known, or are certified before them. -/
def Chain : List ℕ → List Certificate → Prop
  | _, [] => True
  | known, (p, a, bits, factors) :: certificates =>
    (Certifies p a bits factors ∧ ∀ q ∈ factors, q ∈ known) ∧ Chain (p :: known) certificates

instance decidableChain : ∀ (known : List ℕ) (certificates : List Certificate),
    Decidable (Chain known certificates)
  | _, [] => inferInstanceAs (Decidable True)
  | known, (p, a, bits, factors) :: certificates =>
    have := decidableChain (p :: known) certificates
    inferInstanceAs (Decidable ((Certifies p a bits factors ∧ ∀ q ∈ factors, q ∈ known) ∧
      Chain (p :: known) certificates))

theorem Chain.prime {known : List ℕ} {certificates : List Certificate}
    (h : Chain known certificates) (hknown : ∀ q ∈ known, q.Prime) :
    ∀ c ∈ certificates, c.1.Prime := by
  induction certificates generalizing known with
  | nil => exact fun c hc ↦ absurd hc List.not_mem_nil
  | cons certificate certificates ih =>
    obtain ⟨p, a, bits, factors⟩ := certificate
    obtain ⟨⟨hcertifies, hfactors⟩, hchain⟩ := h
    have hp : p.Prime := hcertifies.prime fun q hq ↦ hknown q (hfactors q hq)
    have hknown' : ∀ q ∈ p :: known, q.Prime := by
      rw [List.forall_mem_cons]
      exact ⟨hp, hknown⟩
    rw [List.forall_mem_cons]
    exact ⟨hp, ih hchain hknown'⟩

end Lib
