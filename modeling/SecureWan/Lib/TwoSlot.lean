import Mathlib.Data.Option.Basic

/-!
# Tables of the two most recent values

A rolling replacement scheme keeps the value in force and the one it replaced,
so that work started under the old value can still be finished. Values carry a
tag, and a lookup by tag tries the current value first. Tags may repeat: two
values with one tag make the older one unreachable.
-/

namespace SecureWan

/-- The value in force and, if there is one, the value it replaced. -/
structure TwoSlot (α : Type*) where
  /-- The value in force. -/
  cur : α
  /-- The value in force before, until it is retired. -/
  prev : Option α
  deriving DecidableEq

namespace TwoSlot

variable {α τ : Type*}

/-- The table that holds one value and no predecessor. -/
def init (a : α) : TwoSlot α := ⟨a, none⟩

/-- Put a new value in force; the old one becomes the predecessor. -/
def rotate (w : TwoSlot α) (a : α) : TwoSlot α := ⟨a, some w.cur⟩

/-- Forget the predecessor. -/
def retirePrev (w : TwoSlot α) : TwoSlot α := ⟨w.cur, none⟩

/-- The values of the table, the one in force first. -/
def toList (w : TwoSlot α) : List α := w.cur :: w.prev.toList

@[simp] theorem toList_rotate (w : TwoSlot α) (a : α) : (w.rotate a).toList = [a, w.cur] := rfl

@[simp] theorem toList_retirePrev (w : TwoSlot α) : w.retirePrev.toList = [w.cur] := rfl

section Lookup

variable [DecidableEq τ] (tag : α → τ)

/-- The value filed under a tag: the current one if its tag fits, else the
predecessor if there is one and its tag fits. -/
def lookup (w : TwoSlot α) (t : τ) : Option α :=
  if tag w.cur = t then some w.cur else w.prev.filter (fun a => decide (tag a = t))

/-- The current value is always found under its own tag. -/
@[simp] theorem lookup_cur (w : TwoSlot α) : w.lookup tag (tag w.cur) = some w.cur := by
  simp [lookup]

/-- Where a property does not tell apart two values with one tag, a lookup that finds anything
finds a value with the property exactly when all values with the tag have it. -/
theorem forall_lookup_iff {tag : α → τ} {w : TwoSlot α} {t : τ} {p : α → Prop}
    (hsame : ∀ a, w.prev = some a → tag a = tag w.cur → p w.cur → p a) :
    (∀ a, w.lookup tag t = some a → p a) ↔ ∀ a ∈ w.toList, tag a = t → p a := by
  rw [toList, List.forall_mem_cons]
  simp only [Option.mem_toList]
  by_cases hcur : tag w.cur = t
  · have hfound (a : α) : w.lookup tag t = some a ↔ w.cur = a := by
      rw [lookup, if_pos hcur, Option.some.injEq]
    constructor
    · intro h
      have hp := h w.cur ((hfound w.cur).mpr rfl)
      exact ⟨fun _ => hp, fun a ha htag => hsame a ha (htag.trans hcur.symm) hp⟩
    · rintro ⟨hp, _⟩ a ha
      rw [← (hfound a).mp ha]
      exact hp hcur
  · have hfound (a : α) : w.lookup tag t = some a ↔ w.prev = some a ∧ tag a = t := by
      rw [lookup, if_neg hcur, Option.filter_eq_some_iff, decide_eq_true_iff]
    constructor
    · intro h
      exact ⟨fun htag => absurd htag hcur, fun a ha htag => h a ((hfound a).mpr ⟨ha, htag⟩)⟩
    · rintro ⟨_, hprev⟩ a ha
      obtain ⟨hmem, htag⟩ := (hfound a).mp ha
      exact hprev a hmem htag

end Lookup

end TwoSlot

end SecureWan
