import KeysetPaging.Proofs.Following

/-! # Lists of items with level bookmarks

Items whose bookmarks are level are told apart by no place: a page that starts after one of them
starts after all of them. So a walk may miss items of such a list, but it never stands still. What
comes after an item of a page is always less than what came after the place of the page.
-/

namespace KeysetPaging

variable {σ α : Type}

namespace ItemList

/-- How much of a list is left after a place. What is read of it is left open. -/
def course (list : ItemList α) : Course α :=
  fun place => ⟨fun _ => True, (list.after place).length⟩

variable {list : ItemList α}

/-- What comes after a place leads to the end, and each item of it to where less is left. -/
theorem Ordered.covers (h : list.Ordered) (place : Option Bookmark) :
    list.course.Covers (list.course place) (list.after place) .done where
  goes _ _ := trivial
  le := Nat.zero_le _
  lt := List.length_pos_of_ne_nil
  marks before e after heq := by
    have he : e ∈ list.after place := heq ▸ List.mem_append_right before List.mem_cons_self
    have hlt := h.length_after_lt he
    exact ⟨fun _ _ => trivial, Nat.le_of_lt hlt, fun _ => hlt⟩

/-- **A walk through a list in order never stands still**, whether bookmarks differ or not. -/
theorem Ordered.follows (h : list.Ordered) :
    (Collection.leaf list.bookmarker list.source : Collection σ α).supply.Follows list.course :=
  h.follows_of_covers h.covers

end ItemList

end KeysetPaging
