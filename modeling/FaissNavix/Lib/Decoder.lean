import FaissNavix.Lib.Region

/-!
# Decoding bytes

A decoder takes what it reads from the bytes that are left, or fails.  `Decodes d bs a` says that from
the bytes `bs`, whatever is after them, `d` makes `a`, and takes no more than these: what an encoder
and a decoder of one format have to agree on.
-/

namespace Lib

/-- What is read from the bytes that are left, and the bytes that are left then. -/
abbrev Decoder (α : Type) :=
  StateT (List UInt8) Option α

namespace Decoder

variable {α β : Type}

def bytes (n : ℕ) : Decoder (List UInt8) :=
  fun s ↦ if n ≤ s.length then some (s.take n, s.drop n) else none

def check (b : Bool) : Decoder Unit :=
  fun s ↦ if b then some ((), s) else none

def ofOption (x : Option α) : Decoder α :=
  fun s ↦ x.map (·, s)

/-- A number of some bytes, the last one first. -/
def nat (k : ℕ) : Decoder ℕ := do
  return ofBytes (← bytes k)

def many (d : Decoder α) : ℕ → Decoder (List α)
  | 0 => pure []
  | n + 1 => do return (← d) :: (← many d n)

end Decoder

/-- From the bytes `bs` the decoder makes `a`. -/
def Decodes {α : Type} (d : Decoder α) (bs : List UInt8) (a : α) : Prop :=
  ∀ s, d.run (bs ++ s) = some (a, s)

variable {α β : Type} {d : Decoder α} {bs bs' : List UInt8} {a : α} {f : α → Decoder β} {b : β}

theorem Decodes.run_bind (h : Decodes d bs a) (f : α → Decoder β) (s : List UInt8) :
    (d >>= f).run (bs ++ s) = (f a).run s := by
  rw [StateT.run_bind, h s]
  rfl

theorem Decodes.bind (h : Decodes d bs a) (h' : Decodes (f a) bs' b) :
    Decodes (d >>= f) (bs ++ bs') b := by
  intro s
  rw [List.append_assoc, h.run_bind, h' s]

theorem decodes_pure (a : α) : Decodes (pure a) [] a :=
  fun _ ↦ rfl

theorem Decodes.map (h : Decodes d bs a) (f : α → β) : Decodes (do return f (← d)) bs (f a) := by
  intro s
  rw [h.run_bind]
  rfl

theorem decodes_bytes (bs : List UInt8) : Decodes (.bytes bs.length) bs bs := by
  intro s
  refine (if_pos ?_).trans ?_
  · rw [List.length_append]
    exact Nat.le_add_right _ _
  · rw [List.take_left, List.drop_left]

theorem decodes_check {p : Bool} (h : p = true) : Decodes (.check p) [] () :=
  fun _ ↦ if_pos h

theorem decodes_ofOption {x : Option α} (h : x = some a) : Decodes (.ofOption x) [] a := by
  intro s
  rw [h]
  rfl

theorem decodes_nat {k x : ℕ} (h : x < 256 ^ k) : Decodes (.nat k) (toBytes k x) x := by
  have hbytes := (decodes_bytes (toBytes k x)).map ofBytes
  rw [length_toBytes, ofBytes_toBytes, Nat.mod_eq_of_lt h] at hbytes
  exact hbytes

theorem decodes_many {enc : α → List UInt8} {xs : List α} (h : ∀ x ∈ xs, Decodes d (enc x) x) :
    Decodes (d.many xs.length) (xs.flatMap enc) xs := by
  induction xs with
  | nil => exact decodes_pure []
  | cons x xs ih =>
      rw [List.flatMap_cons]
      exact (h x List.mem_cons_self).bind
        ((ih fun y hy ↦ h y (List.mem_cons_of_mem x hy)).map (x :: ·))

theorem length_of_many {n : ℕ} {s s' : List UInt8} {xs : List α}
    (h : (d.many n).run s = some (xs, s')) : xs.length = n := by
  induction n generalizing s s' xs with
  | zero =>
      cases h
      rfl
  | succ n ih =>
      unfold Decoder.many at h
      rw [StateT.run_bind] at h
      obtain ⟨⟨x, s₁⟩, -, h⟩ := Option.bind_eq_some_iff.mp h
      rw [StateT.run_bind] at h
      obtain ⟨⟨ys, s₂⟩, hys, h⟩ := Option.bind_eq_some_iff.mp h
      cases h
      rw [List.length_cons, ih hys]

end Lib
