import Mathlib.Data.List.Basic
import Mathlib.Logic.Function.Basic

/-!
# Tables that are edited cell by cell

A table gives for each key a value or nothing. An edit looks at one cell and writes that
cell. What a sequence of edits leaves in a cell depends on the edits of this cell only.
-/

namespace Npnpm

/-- An edit of the cell of a key. -/
structure CellEdit (K W : Type*) where
  key : K
  change : Option W → Option W

namespace CellEdit

variable {K W : Type*} [DecidableEq K]

def put (key : K) (value : W) : CellEdit K W := ⟨key, fun _ => some value⟩

def erase (key : K) : CellEdit K W := ⟨key, fun _ => none⟩

/-- The table after an edit. -/
def apply (edit : CellEdit K W) (table : K → Option W) : K → Option W :=
  Function.update table edit.key (edit.change (table edit.key))

/-- The table after some edits, the first one first. -/
def applyAll (edits : List (CellEdit K W)) (table : K → Option W) : K → Option W :=
  edits.foldl (fun table edit => edit.apply table) table

variable {edit : CellEdit K W} {edits edits' : List (CellEdit K W)} {table : K → Option W}
  {key : K}

theorem apply_self : edit.apply table edit.key = edit.change (table edit.key) :=
  Function.update_self ..

theorem apply_of_ne (h : key ≠ edit.key) : edit.apply table key = table key :=
  Function.update_of_ne h ..

theorem apply_put (value : W) (k : K) :
    (put key value).apply table k = if k = key then some value else table k :=
  Function.update_apply ..

theorem apply_erase (k : K) :
    (erase key).apply table k = if k = key then none else table k :=
  Function.update_apply ..

@[simp] theorem applyAll_nil : applyAll [] table = table := rfl

@[simp] theorem applyAll_cons :
    applyAll (edit :: edits) table = applyAll edits (edit.apply table) := rfl

theorem applyAll_append :
    applyAll (edits ++ edits') table = applyAll edits' (applyAll edits table) :=
  List.foldl_append

/-- A cell that no edit is for stays as it is. -/
theorem applyAll_of_forall_ne (h : ∀ edit ∈ edits, edit.key ≠ key) :
    applyAll edits table key = table key := by
  induction edits generalizing table with
  | nil => rfl
  | cons edit rest ih =>
      rw [applyAll_cons, ih fun edit' hmem => h edit' (List.mem_cons_of_mem _ hmem)]
      exact apply_of_ne (h edit List.mem_cons_self).symm

/-- A cell in which every edit of it leaves the same holds that when there is such an edit. -/
theorem applyAll_of_mem {value : Option W} (h : ∃ edit ∈ edits, edit.key = key)
    (hall : ∀ edit ∈ edits, edit.key = key → ∀ cell, edit.change cell = value) :
    applyAll edits table key = value := by
  induction edits generalizing table with
  | nil =>
      obtain ⟨_, hmem, -⟩ := h
      cases hmem
  | cons edit rest ih =>
      rw [applyAll_cons]
      by_cases hlater : ∃ edit' ∈ rest, edit'.key = key
      · exact ih hlater fun edit' hmem => hall edit' (List.mem_cons_of_mem _ hmem)
      · obtain ⟨edit', hmem, hkey⟩ := h
        obtain rfl : edit' = edit := (List.mem_cons.mp hmem).resolve_right fun hrest =>
          hlater ⟨edit', hrest, hkey⟩
        rw [applyAll_of_forall_ne fun other hother heq => hlater ⟨other, hother, heq⟩, ← hkey,
          apply_self]
        exact hall edit' List.mem_cons_self hkey _

end CellEdit

end Npnpm
