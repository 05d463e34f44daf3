import Mathlib.Data.List.Basic
import Mathlib.Tactic.Ring

/-! # Byte streams

A word is stored least significant byte first.  A writer appends fields to a buffer of a
fixed size: a field that does not fit is skipped and marks the writer, and the fields
after it are still tried.  A sequence of fields is written without a mark exactly when
all of them together fit, and the buffer then holds them one after the other.
-/
namespace Crucible
open List

/-! ### Words as bytes -/

/-- The low `n` bytes of a word, least significant first. -/
def leBytes : Nat → Nat → List UInt8
  | 0, _ => []
  | n + 1, x => UInt8.ofNat (x % 256) :: leBytes n (x / 256)

/-- The low `n` bytes of an integer in two's complement. -/
def intBytes (n : Nat) (x : Int) : List UInt8 := leBytes n (x % (256 ^ n : Nat)).toNat

def zeroBytes (n : Nat) : List UInt8 := replicate n 0

@[simp] theorem length_leBytes (n x : Nat) : (leBytes n x).length = n := by
  induction n generalizing x with
  | zero => rfl
  | succ n ih => rw [leBytes, length_cons, ih]

@[simp] theorem length_intBytes (n : Nat) (x : Int) : (intBytes n x).length = n :=
  length_leBytes n _

@[simp] theorem length_zeroBytes (n : Nat) : (zeroBytes n).length = n :=
  length_replicate

/-! ### The bounded writer -/

/-- A buffer of `max` bytes that is filled from the front. -/
structure Writer where
  out : List UInt8 := []
  max : Nat
  ok : Bool := true
deriving DecidableEq

namespace Writer

def writeBytes (w : Writer) (src : List UInt8) : Writer :=
  if w.out.length + src.length > w.max then { w with ok := false }
  else { w with out := w.out ++ src }

def writeAll (w : Writer) (fields : List (List UInt8)) : Writer := fields.foldl writeBytes w

variable {w : Writer}

theorem writeBytes_fits {src : List UInt8} (h : w.out.length + src.length ≤ w.max) :
    w.writeBytes src = { w with out := w.out ++ src } :=
  if_neg h.not_gt

theorem writeBytes_marks {src : List UInt8} (h : w.max < w.out.length + src.length) :
    w.writeBytes src = { w with ok := false } :=
  if_pos h

@[simp] theorem writeAll_nil (w : Writer) : w.writeAll [] = w := rfl

theorem writeAll_cons (w : Writer) (field : List UInt8) (fields : List (List UInt8)) :
    w.writeAll (field :: fields) = (w.writeBytes field).writeAll fields := rfl

variable {fields : List (List UInt8)}

theorem writeAll_fits (h : w.out.length + fields.flatten.length ≤ w.max) :
    w.writeAll fields = { w with out := w.out ++ fields.flatten } := by
  induction fields generalizing w with
  | nil => rw [writeAll_nil, flatten_nil, append_nil]
  | cons field fields ih =>
    rw [flatten_cons, length_append] at h
    rw [writeAll_cons, writeBytes_fits (by omega), ih]
    · rw [flatten_cons, append_assoc]
    · simp only [length_append]
      omega

theorem writeAll_marked (h : w.ok = false) : (w.writeAll fields).ok = false := by
  induction fields generalizing w with
  | nil => exact h
  | cons field fields ih =>
    apply ih
    by_cases hfits : w.out.length + field.length ≤ w.max
    · rw [writeBytes_fits hfits]
      exact h
    · rw [writeBytes_marks (not_le.mp hfits)]

theorem writeAll_overflows
    (hroom : w.out.length ≤ w.max) (h : w.max < w.out.length + fields.flatten.length) :
    (w.writeAll fields).ok = false := by
  induction fields generalizing w with
  | nil =>
    rw [flatten_nil, length_nil] at h
    omega
  | cons field fields ih =>
    rw [flatten_cons, length_append] at h
    rw [writeAll_cons]
    by_cases hfits : w.out.length + field.length ≤ w.max
    · -- the field goes in, so the rest is too long for what is left
      rw [writeBytes_fits hfits]
      apply ih
      · rw [length_append]
        exact hfits
      · simp only [length_append]
        omega
    · rw [writeBytes_marks (not_le.mp hfits)]
      exact writeAll_marked rfl

end Writer

end Crucible
