import Cupcake.Lib.Word

/-! Page arithmetic on 64-bit addresses. -/

namespace Cupcake

def pageSize : ℕ := 4096

def pageAlign (n : ℕ) : ℕ := wadd 64 n (pageSize - 1) / pageSize * pageSize

/-- `n & PAGE_MASK` -/
def pageFloor (n : ℕ) : ℕ := n / pageSize * pageSize

theorem pageAlign_of_lt {n : ℕ} (h : n + pageSize ≤ 2 ^ 64) :
    pageAlign n = (n + 4095) / 4096 * 4096 := by
  unfold pageSize at h
  rw [pageAlign, pageSize, wadd_of_lt (by omega)]

/-! For the first address of a page, the bounds of a page range are those of the
addresses they were rounded from. -/

section Rounding

variable {n x : ℕ} (hx : x % pageSize = 0)

include hx

theorem pageAlign_le_iff (h : n + pageSize ≤ 2 ^ 64) : pageAlign n ≤ x ↔ n ≤ x := by
  rw [pageAlign_of_lt h]
  unfold pageSize at hx
  omega

theorem lt_pageAlign_iff (h : n + pageSize ≤ 2 ^ 64) : x < pageAlign n ↔ x < n := by
  rw [← not_le, pageAlign_le_iff hx h, not_le]

theorem lt_pageFloor_iff : x < pageFloor n ↔ x + pageSize ≤ n := by
  unfold pageFloor pageSize at *
  omega

end Rounding

theorem pageAlign_mod (n : ℕ) : pageAlign n % pageSize = 0 := Nat.mul_mod_left ..

theorem pageFloor_mod (n : ℕ) : pageFloor n % pageSize = 0 := Nat.mul_mod_left ..

theorem pageFloor_le (n : ℕ) : pageFloor n ≤ n := Nat.div_mul_le_self ..

theorem le_pageAlign {n : ℕ} (h : n + pageSize ≤ 2 ^ 64) : n ≤ pageAlign n := by
  rw [pageAlign_of_lt h]
  omega

end Cupcake
