import EventQuant.Library.Precision

/-!
An arithmetic whose operations round. Each takes the exact result to the value
it hands back; rounding keeps the order and is off by no more than a fixed part
of the value. Nothing is rounded in the exact one.
-/
namespace EventQuant

structure Decimals where
  round : ℚ → ℚ
  round_mono : Monotone round
  round_zero : round 0 = 0
  error : ℚ
  error_nonneg : 0 ≤ error
  round_close : ∀ q, |round q - q| ≤ error * |q|

namespace Decimals

def exact : Decimals where
  round q := q
  round_mono := monotone_id
  round_zero := rfl
  error := 0
  error_nonneg := le_rfl
  round_close q := by simp

def ofPrecision (π : Precision) : Decimals where
  round := π.round
  round_mono := π.round_mono
  round_zero := π.round_zero
  error := π.error
  error_nonneg := π.error_nonneg
  round_close := π.abs_round_sub_le_error

def context : Decimals := ofPrecision .decimal28

variable (d : Decimals)

def add (x y : ℚ) : ℚ := d.round (x + y)

def sub (x y : ℚ) : ℚ := d.round (x - y)

def mul (x y : ℚ) : ℚ := d.round (x * y)

def div (x y : ℚ) : ℚ := d.round (x / y)

def sum (xs : List ℚ) : ℚ := xs.foldl d.add 0

@[simp] theorem exact_add (x y : ℚ) : exact.add x y = x + y := rfl

@[simp] theorem exact_sub (x y : ℚ) : exact.sub x y = x - y := rfl

@[simp] theorem exact_mul (x y : ℚ) : exact.mul x y = x * y := rfl

@[simp] theorem exact_sum (xs : List ℚ) : exact.sum xs = xs.sum := by
  have hfold : ∀ (xs : List ℚ) (total : ℚ), xs.foldl exact.add total = total + xs.sum := by
    intro xs
    induction xs with
    | nil => simp
    | cons x xs ih => intro total; rw [List.foldl_cons, ih, List.sum_cons, exact_add, add_assoc]
  rw [sum, hfold, zero_add]

def left (available : ℚ) (taken : List ℚ) : ℚ := taken.foldl d.sub available

/-- What the roundings on the way come to at most. -/
def drift : ℚ → List ℚ → ℚ
  | _, [] => 0
  | available, size :: sizes => d.error * |available - size| + drift (d.sub available size) sizes

@[simp] theorem left_nil (available : ℚ) : d.left available [] = available := rfl

@[simp] theorem left_cons (available size : ℚ) (sizes : List ℚ) :
    d.left available (size :: sizes) = d.left (d.sub available size) sizes := rfl

/-- Taking off one by one is taking off the sum, but for the roundings. -/
theorem left_close (available : ℚ) (taken : List ℚ) :
    |d.left available taken - (available - taken.sum)| ≤ d.drift available taken := by
  induction taken generalizing available with
  | nil => simp [drift]
  | cons size sizes ih =>
    have hfirst := d.round_close (available - size)
    have hrest := ih (d.sub available size)
    rw [left_cons, List.sum_cons, drift]
    calc |d.left (d.sub available size) sizes - (available - (size + sizes.sum))|
        = |(d.round (available - size) - (available - size)) +
            (d.left (d.sub available size) sizes - (d.sub available size - sizes.sum))| := by
          unfold sub
          ring_nf
      _ ≤ _ := (abs_add_le _ _).trans (add_le_add hfirst hrest)

theorem round_nonneg {q : ℚ} (h : 0 ≤ q) : 0 ≤ d.round q := d.round_zero ▸ d.round_mono h

end Decimals

end EventQuant
