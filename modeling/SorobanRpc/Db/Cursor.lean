import Mathlib.Data.List.Basic
import Mathlib.Algebra.Group.Nat.Basic
/-!
# Cursors

The position of an event in the ledger stream, and the half-open ranges `GetEvents` is asked for.
`db.Cursor` is declared outside the handler's file; its fields are the three `uint32` values the
handler builds it from, and its order is the spec's lexicographic one.

Every comparison of `uint32` values below is one of their `toNat` values, so the lemmas of the
first section turn each into a goal `omega` closes.
-/

namespace SorobanRpc

/-! ### `uint32` arithmetic as natural numbers -/

theorem uint32_lt_iff {a b : UInt32} : a < b ↔ a.toNat < b.toNat := Iff.rfl

theorem uint32_le_iff {a b : UInt32} : a ≤ b ↔ a.toNat ≤ b.toNat := Iff.rfl

theorem uint32_eq_iff {a b : UInt32} : a = b ↔ a.toNat = b.toNat :=
  ⟨congrArg UInt32.toNat, UInt32.toNat.inj⟩

theorem uint32_toNat_add (a b : UInt32) : (a + b).toNat = (a.toNat + b.toNat) % 2 ^ 32 :=
  BitVec.toNat_add _ _

theorem uint32_toNat_sub (a b : UInt32) :
    (a - b).toNat = (2 ^ 32 - b.toNat + a.toNat) % 2 ^ 32 :=
  BitVec.toNat_sub _ _

@[simp] theorem uint32_toNat_ofNat (n : Nat) : (UInt32.ofNat n).toNat = n % 2 ^ 32 := rfl

@[simp] theorem uint32_toNat_one : (1 : UInt32).toNat = 1 := rfl

theorem uint32_toNat_lt (a : UInt32) : a.toNat < 2 ^ 32 := a.toNat_lt_size

@[simp] theorem uint32_ofNat_toNat (a : UInt32) : UInt32.ofNat a.toNat = a := by
  rw [uint32_eq_iff, uint32_toNat_ofNat, Nat.mod_eq_of_lt (uint32_toNat_lt a)]

/-! ### The cursor order -/

/-- Modelled from the spec: `db.Cursor`, the position (ledger, tx, event) of an event. -/
structure Cursor where
  ledger : UInt32
  tx : UInt32
  event : UInt32
deriving DecidableEq

namespace Cursor

/-- Modelled from the spec: cursors compare lexicographically. -/
protected def Lt (a b : Cursor) : Prop :=
  a.ledger < b.ledger ∨ a.ledger = b.ledger ∧ (a.tx < b.tx ∨ a.tx = b.tx ∧ a.event < b.event)

/-- Modelled from the spec: the order `Lt` closes reflexively. -/
protected def Le (a b : Cursor) : Prop :=
  a.ledger < b.ledger ∨ a.ledger = b.ledger ∧ (a.tx < b.tx ∨ a.tx = b.tx ∧ a.event ≤ b.event)

instance : LT Cursor := ⟨Cursor.Lt⟩

instance : LE Cursor := ⟨Cursor.Le⟩

instance (a b : Cursor) : Decidable (a < b) :=
  inferInstanceAs (Decidable (a.ledger < b.ledger ∨
    a.ledger = b.ledger ∧ (a.tx < b.tx ∨ a.tx = b.tx ∧ a.event < b.event)))

instance (a b : Cursor) : Decidable (a ≤ b) :=
  inferInstanceAs (Decidable (a.ledger < b.ledger ∨
    a.ledger = b.ledger ∧ (a.tx < b.tx ∨ a.tx = b.tx ∧ a.event ≤ b.event)))

theorem lt_iff {a b : Cursor} : a < b ↔ a.ledger.toNat < b.ledger.toNat ∨
    a.ledger.toNat = b.ledger.toNat ∧ (a.tx.toNat < b.tx.toNat ∨
      a.tx.toNat = b.tx.toNat ∧ a.event.toNat < b.event.toNat) := by
  simp only [LT.lt, Cursor.Lt, uint32_eq_iff]
  rfl

theorem le_iff {a b : Cursor} : a ≤ b ↔ a.ledger.toNat < b.ledger.toNat ∨
    a.ledger.toNat = b.ledger.toNat ∧ (a.tx.toNat < b.tx.toNat ∨
      a.tx.toNat = b.tx.toNat ∧ a.event.toNat ≤ b.event.toNat) := by
  simp only [LE.le, Cursor.Le, uint32_eq_iff]
  rfl

end Cursor

/-- Modelled from the spec: `db.CursorRange`, the half-open interval `[Start, End)`. -/
structure CursorRange where
  start : Cursor
  «end» : Cursor

/-- A cursor lies in the range. -/
def CursorRange.Contains (r : CursorRange) (c : Cursor) : Prop :=
  r.start ≤ c ∧ c < r.end

instance (r : CursorRange) (c : Cursor) : Decidable (r.Contains c) :=
  inferInstanceAs (Decidable (_ ∧ _))

end SorobanRpc
