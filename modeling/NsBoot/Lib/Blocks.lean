import Mathlib.Data.List.Basic

/-!
# NsBoot.Lib.Blocks — block contents and copy-on-write overlays

The content of a disk image is a finite map from block numbers to cells, kept
as a list with one entry for each block. An overlay holds the blocks written
since it was made; committing it writes them, one block after another, into
the image it is backed by.

`commitN n` is a commit stopped after `n` blocks. It is the state a reader of
the backing image can see while a commit runs; `commitN_succ` is the step from
one such state to the next, and `commitN_of_length_le` says where it ends.
-/

namespace NsBoot.Blocks

variable {α : Type*}

/-- Contents: a cell for each block that was ever written. -/
abbrev Content (α : Type*) := List (Nat × α)

/-- Writing one block. -/
def write (c : Content α) (b : Nat) (x : α) : Content α :=
  c.filter (fun e => e.1 ≠ b) ++ [(b, x)]

/-- Reading one block; `none` when it was never written. -/
def read (c : Content α) (b : Nat) : Option α := (c.find? fun e => e.1 = b).map Prod.snd

/-- Writing the blocks of an overlay into the image below it. -/
def commit (base top : Content α) : Content α :=
  top.foldl (fun acc e => write acc e.1 e.2) base

/-- A commit stopped after its first `n` blocks. -/
def commitN (n : Nat) (base top : Content α) : Content α := commit base (top.take n)

@[simp] theorem commitN_zero (base top : Content α) : commitN 0 base top = base := by
  simp [commitN, commit]

/-- One more block. -/
theorem commitN_succ {n : Nat} {top : Content α} {e : Nat × α} (h : top[n]? = some e)
    (base : Content α) : commitN (n + 1) base top = write (commitN n base top) e.1 e.2 := by
  simp [commitN, commit, List.take_add_one, h]

/-- Nothing is missing once every block was copied. -/
theorem commitN_of_length_le {n : Nat} {top : Content α} (h : top.length ≤ n)
    (base : Content α) : commitN n base top = commit base top := by
  simp [commitN, List.take_of_length_le h]

/-- Every entry after a write is the new one or was there. -/
theorem mem_write {c : Content α} {b : Nat} {x : α} {e : Nat × α} (h : e ∈ write c b x) :
    e ∈ c ∨ e = (b, x) := by
  rcases List.mem_append.1 h with h | h
  · exact Or.inl (List.mem_of_mem_filter h)
  · exact Or.inr (by simpa using h)

end NsBoot.Blocks
