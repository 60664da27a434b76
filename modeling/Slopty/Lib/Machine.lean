import Mathlib.Algebra.Order.Ring.Int
import Mathlib.Data.Nat.Basic
import Mathlib.Order.Basic

/-!
Machine-level vocabulary: byte strings and their little-endian integers,
saturating counters, instants and durations in nanoseconds, and loops that run
until a step has nothing left to do.
-/

namespace Slopty.Lib

universe u

abbrev Bytes := List UInt8

/-- Unsigned addition that stops at the largest value of `bits` bits. -/
def satAdd (bits a b : Nat) : Nat := min (a + b) (2 ^ bits - 1)

theorem satAdd_of_lt {bits a b : Nat} (h : a + b < 2 ^ bits) : satAdd bits a b = a + b :=
  min_eq_left (Nat.le_sub_one_of_lt h)

def satMul (bits a b : Nat) : Nat := min (a * b) (2 ^ bits - 1)

/-- Quotient rounded up. -/
def divCeil (a b : Nat) : Nat := (a + b - 1) / b

theorem le_divCeil_mul {a b : Nat} (hb : 0 < b) : a ≤ divCeil a b * b := by
  have hmod := Nat.div_add_mod (a + b - 1) b
  have hlt := Nat.mod_lt (a + b - 1) hb
  rw [divCeil, Nat.mul_comm]
  omega

theorem divCeil_mul_lt {a b : Nat} (hb : 0 < b) : divCeil a b * b < a + b := by
  have hle := Nat.div_mul_le_self (a + b - 1) b
  rw [divCeil]
  omega

/-- The `width` low bytes of a number, least significant first. -/
def leBytes : Nat → Nat → Bytes
  | 0, _ => []
  | width + 1, n => UInt8.ofNat n :: leBytes width (n / 256)

/-- The number a little-endian byte string spells. -/
def ofLe : Bytes → Nat
  | [] => 0
  | b :: rest => b.toNat + 256 * ofLe rest

@[simp] theorem leBytes_length (width n : Nat) : (leBytes width n).length = width := by
  induction width generalizing n with
  | zero => rfl
  | succ width ih => simp [leBytes, ih]

theorem ofLe_leBytes (width n : Nat) : ofLe (leBytes width n) = n % 256 ^ width := by
  induction width generalizing n with
  | zero => simp [leBytes, ofLe, Nat.mod_one]
  | succ width ih =>
      have hbyte : (UInt8.ofNat n).toNat = n % 256 := by simp
      simp only [leBytes, ofLe, ih, hbyte]
      rw [Nat.pow_succ, Nat.mul_comm (256 ^ width) 256, Nat.mod_mul]

/-- A point on the monotonic clock, in nanoseconds from some origin. -/
abbrev Instant := Int

/-- A stretch of time in nanoseconds. -/
abbrev Duration := Nat

namespace Duration

/-- The longest representable stretch: `u64::MAX` seconds and 999 999 999 ns. -/
def max : Duration := (2 ^ 64 - 1) * 10 ^ 9 + 999999999

def millis (n : Nat) : Duration := n * 1000000

def asMillis (d : Duration) : Nat := d / 1000000

def asMicros (d : Duration) : Nat := d / 1000

def saturatingAdd (a b : Duration) : Duration := min (a + b) max

def saturatingMul (a : Duration) (n : Nat) : Duration := min (a * n) max

def checkedDiv (a : Duration) (n : Nat) : Option Duration :=
  if n = 0 then none else some (a / n)

def clamp (a lo hi : Duration) : Duration :=
  if a < lo then lo else if hi < a then hi else a

end Duration

/-- `saturating_duration_since`: zero when `b` is later than `a`. -/
def Instant.since (a b : Instant) : Duration := (a - b).toNat

/-- Run `step` until it stops or `fuel` steps were taken. -/
def loop {σ : Type u} (step : σ → Option σ) : Nat → σ → σ
  | 0, s => s
  | fuel + 1, s =>
      match step s with
      | none => s
      | some t => loop step fuel t

theorem loop_eq_self {σ : Type u} {step : σ → Option σ} {s : σ} (h : step s = none) (fuel : Nat) :
    loop step fuel s = s := by
  cases fuel with
  | zero => rfl
  | succ fuel => simp [loop, h]

theorem loop_induct {σ : Type u} {step : σ → Option σ} {P : σ → Prop}
    (hstep : ∀ s t, P s → step s = some t → P t) (fuel : Nat) {s : σ} (hs : P s) :
    P (loop step fuel s) := by
  induction fuel generalizing s with
  | zero => exact hs
  | succ fuel ih =>
      simp only [loop]
      cases h : step s with
      | none => exact hs
      | some t => exact ih (hstep s t hs h)

/-- A loop whose steps shrink a measure, given that measure as fuel, runs until
it has nothing left to do. -/
theorem loop_stuck {σ : Type u} {step : σ → Option σ} {μ : σ → Nat}
    (hdec : ∀ s t, step s = some t → μ t < μ s) {fuel : Nat} {s : σ} (hfuel : μ s ≤ fuel) :
    step (loop step fuel s) = none := by
  induction fuel generalizing s with
  | zero =>
      simp only [loop]
      cases h : step s with
      | none => rfl
      | some t =>
          have := hdec s t h
          omega
  | succ fuel ih =>
      simp only [loop]
      cases h : step s with
      | none => exact h
      | some t =>
          apply ih
          have := hdec s t h
          omega

end Slopty.Lib
