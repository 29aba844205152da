import Mathlib.Data.List.Basic

/-!
# Backpatching

Output is written front to back while the values of some fields are not known yet. Such a
field is left blank, its position is noted, and it is overwritten in the end. When all
fields have one width this gives the output that is written in one go by who knows the
values from the start.
-/

namespace Backpatch

variable {β L : Type*}

/-- A part of the output. -/
inductive Item (β L : Type*) where
  /-- Text that is known. -/
  | chunk (bs : List β)
  /-- A field whose value depends on a label. -/
  | hole (l : L)

/-- Write items from position `pos` on, with the field at `p` for `l` as `fill p l`. -/
def place (fill : ℕ → L → List β) : ℕ → List (Item β L) → List β
  | _, [] => []
  | pos, .chunk bs :: items => bs ++ place fill (pos + bs.length) items
  | pos, .hole l :: items => fill pos l ++ place fill (pos + (fill pos l).length) items

/-- The fields of width `w` among items that start at `pos`. -/
def holes (w : ℕ) : ℕ → List (Item β L) → List (ℕ × L)
  | _, [] => []
  | pos, .chunk bs :: items => holes w (pos + bs.length) items
  | pos, .hole l :: items => (pos, l) :: holes w (pos + w) items

/-- How much items of field width `w` take. -/
def width (w : ℕ) : List (Item β L) → ℕ
  | [] => 0
  | .chunk bs :: items => bs.length + width w items
  | .hole _ :: items => w + width w items

/-- Overwrite the text at `pos`. -/
def write (out : List β) (pos : ℕ) (bs : List β) : List β :=
  out.take pos ++ bs ++ out.drop (pos + bs.length)

variable {fill : ℕ → L → List β} {w pos : ℕ}

/-- Text that stands between others is overwritten. -/
theorem write_between (pre old post : List β) {bs : List β} (h : old.length = bs.length) :
    write (pre ++ (old ++ post)) pre.length bs = pre ++ (bs ++ post) := by
  rw [write, List.take_left, List.append_assoc, ← h, ← List.drop_drop, List.drop_left,
    List.drop_left]

/-- Items take their width, whatever their fields hold. -/
theorem length_place (hfill : ∀ p l, (fill p l).length = w) (items : List (Item β L)) :
    (place fill pos items).length = width w items := by
  induction items generalizing pos with
  | nil => rfl
  | cons item items ih =>
    cases item with
    | chunk bs => rw [place, List.length_append, ih, width]
    | hole l => rw [place, List.length_append, hfill, ih, width]

/-- The width of items that follow each other. -/
theorem width_append (items rest : List (Item β L)) :
    width w (items ++ rest) = width w items + width w rest := by
  induction items with
  | nil => exact (Nat.zero_add _).symm
  | cons item items ih =>
    cases item with
    | chunk bs => rw [List.cons_append, width, width, ih, Nat.add_assoc]
    | hole l => rw [List.cons_append, width, width, ih, Nat.add_assoc]

/-- Items written one after the other. -/
theorem place_append (hfill : ∀ p l, (fill p l).length = w) (items rest : List (Item β L)) :
    place fill pos (items ++ rest) =
      place fill pos items ++ place fill (pos + width w items) rest := by
  induction items generalizing pos with
  | nil => rfl
  | cons item items ih =>
    cases item with
    | chunk bs =>
      rw [List.cons_append, place, place, ih, width, List.append_assoc, Nat.add_assoc]
    | hole l =>
      rw [List.cons_append, place, place, ih, hfill, width, List.append_assoc, Nat.add_assoc]

/-- The fields of items that follow each other. -/
theorem holes_append (items rest : List (Item β L)) :
    holes w pos (items ++ rest) = holes w pos items ++ holes w (pos + width w items) rest := by
  induction items generalizing pos with
  | nil => rfl
  | cons item items ih =>
    cases item with
    | chunk bs => rw [List.cons_append, holes, holes, ih, width, Nat.add_assoc]
    | hole l => rw [List.cons_append, holes, holes, ih, width, List.cons_append, Nat.add_assoc]

/-- Every field is among the fields. -/
theorem exists_mem_holes {l : L} {items : List (Item β L)} (h : .hole l ∈ items) :
    ∃ p, (p, l) ∈ holes w pos items := by
  induction items generalizing pos with
  | nil => cases h
  | cons item items ih =>
    rcases List.mem_cons.mp h with rfl | hrest
    · exact ⟨pos, List.mem_cons_self ..⟩
    · cases item with
      | chunk bs => exact ih hrest
      | hole l' =>
        obtain ⟨p, hp⟩ := ih hrest
        exact ⟨p, List.mem_cons_of_mem _ hp⟩

/-- Overwriting the fields one after the other, behind text that stays as it is. -/
private theorem foldl_write (blank : ℕ → L → List β) (hblank : ∀ p l, (blank p l).length = w)
    (hfill : ∀ p l, (fill p l).length = w) (items : List (Item β L)) (pre : List β) :
    (holes w pre.length items).foldl (fun out hole => write out hole.1 (fill hole.1 hole.2))
        (pre ++ place blank pre.length items) = pre ++ place fill pre.length items := by
  induction items generalizing pre with
  | nil => rfl
  | cons item items ih =>
    cases item with
    | chunk bs =>
      have hstep := ih (pre ++ bs)
      rw [List.length_append, List.append_assoc, List.append_assoc] at hstep
      exact hstep
    | hole l =>
      have hlen : (blank pre.length l).length = (fill pre.length l).length := by
        rw [hblank, hfill]
      have hstep := ih (pre ++ fill pre.length l)
      rw [List.length_append, hfill, List.append_assoc, List.append_assoc] at hstep
      rw [holes, List.foldl_cons, place, place, write_between _ _ _ hlen, hblank, hfill]
      exact hstep

/-- Backpatching writes what is written in one go. -/
theorem patches_eq {blank : ℕ → L → List β} (hblank : ∀ p l, (blank p l).length = w)
    (hfill : ∀ p l, (fill p l).length = w) (items : List (Item β L)) :
    (holes w 0 items).foldl (fun out hole => write out hole.1 (fill hole.1 hole.2))
      (place blank 0 items) = place fill 0 items :=
  foldl_write blank hblank hfill items []

end Backpatch
