/-! The optional slot number stored in buckets and nodes: zero is the absent
offset, any other value is one more than the slot number. -/
namespace InMemoryTable

structure Offset where
  value : Nat
  deriving DecidableEq, Repr

namespace Offset

def noneValue : Nat := 0

def none : Offset := ⟨noneValue⟩

def some (offset : Nat) : Offset := ⟨offset + 1⟩

def get (self : Offset) : Option Nat :=
  if self.value = noneValue then Option.none else Option.some (self.value - 1)

@[simp] theorem get_none : none.get = Option.none := rfl

@[simp] theorem get_some (offset : Nat) : (some offset).get = Option.some offset := rfl

@[simp] theorem some_inj {a b : Nat} : some a = some b ↔ a = b := by
  simp [some]

end Offset
end InMemoryTable
