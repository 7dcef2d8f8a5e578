import Mathlib

/-!
# Bytes that say how many they are

A frame is a mark, the number of its bytes, and the bytes. None is the beginning of another, so a
frame that is cut short is not taken for one.
-/

namespace Fridica.Frame

abbrev Bytes := List UInt8

/-- A number as so many bytes, the greatest first. -/
def to_be : Nat → Nat → Bytes
  | 0, _ => []
  | k + 1, n => to_be k (n / 256) ++ [UInt8.ofNat n]

def of_be (bytes : Bytes) : Nat := bytes.foldl (fun n b => n * 256 + b.toNat) 0

@[simp] theorem length_to_be (k n : Nat) : (to_be k n).length = k := by
  induction k generalizing n with
  | zero => rfl
  | succ k ih => simp [to_be, ih]

@[simp] theorem of_be_concat (bytes : Bytes) (b : UInt8) :
    of_be (bytes ++ [b]) = of_be bytes * 256 + b.toNat := by
  simp [of_be]

theorem of_be_to_be {k n : Nat} (h : n < 256 ^ k) : of_be (to_be k n) = n := by
  induction k generalizing n with
  | zero =>
    have hzero : n = 0 := by simpa using h
    rw [hzero]
    rfl
  | succ k ih =>
    have hrest : n / 256 < 256 ^ k := by
      rw [Nat.div_lt_iff_lt_mul (by decide)]
      rwa [Nat.pow_succ] at h
    rw [to_be, of_be_concat, ih hrest, UInt8.toNat_ofNat']
    omega

theorem to_be_of_be (bytes : Bytes) : to_be bytes.length (of_be bytes) = bytes := by
  induction bytes using List.reverseRecOn with
  | nil => rfl
  | append_singleton bytes b ih =>
    have hb := b.toNat_lt
    have hdiv : (of_be bytes * 256 + b.toNat) / 256 = of_be bytes := by omega
    have hmod : UInt8.ofNat (of_be bytes * 256 + b.toNat) = b := by
      apply UInt8.toNat_inj.mp
      rw [UInt8.toNat_ofNat']
      omega
    rw [List.length_append, List.length_singleton, of_be_concat, to_be, hdiv, hmod, ih]

def frame (mark : Bytes) (k : Nat) (data : Bytes) : Bytes := mark ++ to_be k data.length ++ data

/-- What begins with a mark and a number and has as many bytes as the number says is a frame. -/
theorem eq_frame {mark bytes data : Bytes} {k : Nat} (hmark : mark <+: bytes)
    (hlong : k ≤ (bytes.drop mark.length).length)
    (hlength : of_be ((bytes.drop mark.length).take k) = data.length)
    (hdata : (bytes.drop mark.length).drop k = data) : bytes = frame mark k data := by
  obtain ⟨body, rfl⟩ := hmark
  rw [List.drop_left] at hlong hlength hdata
  have htake : (body.take k).length = k := List.length_take_of_le hlong
  have hnumber : to_be k data.length = body.take k := by
    have hback := to_be_of_be (body.take k)
    rwa [htake, hlength] at hback
  rw [frame, hnumber, ← hdata, List.append_assoc, List.take_append_drop]

theorem frame_injective {mark a b : Bytes} {k : Nat} (h : frame mark k a = frame mark k b) :
    a = b := by
  have hlength : a.length = b.length := by simpa [frame] using congrArg List.length h
  rw [frame, frame, hlength] at h
  exact List.append_cancel_left h

theorem frame_prefix {mark a b : Bytes} {k : Nat} (ha : a.length < 256 ^ k)
    (hb : b.length < 256 ^ k) (h : frame mark k a <+: frame mark k b) : a = b := by
  simp only [frame, List.append_assoc, List.prefix_append_right_inj] at h
  obtain ⟨rest, hrest⟩ := h
  rw [List.append_assoc] at hrest
  obtain ⟨hnumber, hdata⟩ := List.append_inj hrest (by simp)
  have hlength : a.length = b.length := by
    rw [← of_be_to_be ha, hnumber, of_be_to_be hb]
  exact (List.append_inj (hdata.trans (List.append_nil b).symm) hlength).1

end Fridica.Frame
