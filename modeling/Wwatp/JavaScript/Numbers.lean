import Wwatp.Cxx.Numbers

/-! The numbers of JavaScript: doubles, of which `>>> 0` keeps the low 32 bits. -/
namespace Wwatp
namespace JavaScript

open Cxx

/-- The double nearest to a natural number; of two that are as near, the even one. -/
def nearestDouble (n : ℕ) : ℕ :=
  let spacing := 2 ^ (n.log2 - 52)
  let steps := n / spacing
  let rest := n % spacing
  if spacing < 2 * rest ∨ (2 * rest = spacing ∧ steps % 2 = 1) then (steps + 1) * spacing else steps * spacing

theorem nearestDouble_of_lt {n : ℕ} (h : n < 2 ^ 53) : nearestDouble n = n := by
  have hLog : n.log2 - 52 = 0 := by
    rcases Nat.eq_zero_or_pos n with rfl | hPositive
    · rfl
    · have := (Nat.log2_lt hPositive.ne').mpr h
      omega
  simp [nearestDouble, hLog, Nat.mod_one]

/-- `parseInt(s, base) >>> 0` of a text that does not begin with spaces or a sign. Without any digits this is
0, from `NaN`. -/
def parseUint32 (base : ℕ) (s : Str) : UInt32 := .ofNat (nearestDouble (valueOf base (scanDigits base s).1))

end JavaScript
end Wwatp
