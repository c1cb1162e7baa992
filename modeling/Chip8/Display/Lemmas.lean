import Chip8.Display

/-!
# Cells of a sprite

Which cells a sprite covers, and what drawing it does to each cell of the display. No cell comes
twice in `Sprite.cells`, so `Display.word_draw` can say that a draw inverts exactly these.
-/

namespace Chip8

namespace Cell

/-- A cell determines its column and its row. -/
theorem at_inj {x x' : Fin displayWidth} {y y' : Fin displayHeight} :
    Cell.at x y = Cell.at x' y' ↔ x = x' ∧ y = y' := by
  have hx := x.isLt
  have hx' := x'.isLt
  simp only [Cell.at, Fin.ext_iff, displayWidth] at *
  omega

end Cell

namespace Display

theorem word_flip (d : Display) (c k : Cell) :
    (d.flip c).word k = if c = k then d.word k ^^^ pixelOn else d.word k := by
  have hset : (d.flip c).word k = if c.val = k.val then d.word c ^^^ pixelOn else d.word k :=
    Vector.getElem_set c.isLt k.isLt
  by_cases h : c = k
  · subst h
    rw [hset, if_pos rfl, if_pos rfl]
  · rw [hset, if_neg fun e => h (Fin.ext e), if_neg h]

/-- Flipping cells one after the other inverts each of them, as long as none comes twice. -/
theorem word_foldl_flip (d : Display) {cs : List Cell} (hcs : cs.Nodup) (k : Cell) :
    (cs.foldl flip d).word k = if cs.contains k then d.word k ^^^ pixelOn else d.word k := by
  induction cs generalizing d with
  | nil => rfl
  | cons c cs ih =>
    obtain ⟨hc, hcs⟩ := List.nodup_cons.1 hcs
    rw [List.foldl_cons, ih (d.flip c) hcs, word_flip]
    by_cases h : c = k
    · subst h
      simp [hc]
    · simp [h, Ne.symm h]

end Display

namespace Sprite

/-- The cells of a row are those under its set bits, as far as they lie on the display. -/
theorem mem_rowCells_iff {x : Nat} {y : Fin displayHeight} {row : UInt8} {c : Cell} :
    c ∈ rowCells x y row ↔
      ∃ k < 8, ∃ h : x + k < displayWidth, bit row k = true ∧ c = Cell.at ⟨x + k, h⟩ y := by
  simp only [rowCells, List.mem_filterMap, List.mem_range]
  constructor
  · rintro ⟨k, hk, he⟩
    split at he
    · rename_i h
      split at he
      · rename_i hb
        exact ⟨k, hk, h, hb, (Option.some.inj he).symm⟩
      · cases he
    · cases he
  · rintro ⟨k, hk, h, hb, rfl⟩
    exact ⟨k, hk, by simp [h, hb]⟩

theorem nodup_rowCells (x : Nat) (y : Fin displayHeight) (row : UInt8) : (rowCells x y row).Nodup := by
  unfold rowCells
  refine List.Pairwise.filterMap _ ?_ List.nodup_range
  intro k k' hne c hc c' hc'
  split at hc <;> simp only [Option.ite_none_right_eq_some, Option.some.injEq, reduceCtorEq] at hc
  split at hc' <;> simp only [Option.ite_none_right_eq_some, Option.some.injEq, reduceCtorEq] at hc'
  rw [← hc.2, ← hc'.2, Ne, Cell.at_inj]
  simp only [Fin.mk.injEq]
  omega

/-- The cells of a sprite are those of its rows, as far as they lie on the display. -/
theorem mem_cellsFrom_iff {x y : Nat} {rows : List UInt8} {c : Cell} :
    c ∈ cellsFrom x y rows ↔
      ∃ r, ∃ hr : r < rows.length, ∃ hy : y + r < displayHeight, c ∈ rowCells x ⟨y + r, hy⟩ rows[r] := by
  induction rows generalizing y with
  | nil => simp [cellsFrom]
  | cons row rows ih =>
    rw [cellsFrom]
    split
    · rename_i hy
      rw [List.mem_append, ih]
      constructor
      · rintro (h | ⟨r, hr, hy', h⟩)
        · exact ⟨0, by simp, by omega, by simpa using h⟩
        · refine ⟨r + 1, by simpa using hr, by omega, ?_⟩
          simpa [Nat.add_assoc, Nat.add_comm 1 r] using h
      · rintro ⟨r, hr, hy', h⟩
        cases r with
        | zero => exact .inl (by simpa using h)
        | succ r =>
          refine .inr ⟨r, by simpa using hr, by omega, ?_⟩
          simpa [Nat.add_assoc, Nat.add_comm 1 r] using h
    · simp only [List.not_mem_nil, false_iff]
      rintro ⟨r, hr, hy', h⟩
      omega

theorem nodup_cellsFrom (x y : Nat) (rows : List UInt8) : (cellsFrom x y rows).Nodup := by
  induction rows generalizing y with
  | nil => simp [cellsFrom]
  | cons row rows ih =>
    rw [cellsFrom]
    split
    · refine List.nodup_append.2 ⟨nodup_rowCells _ _ _, ih _, ?_⟩
      intro c hc c' hc' he
      subst he
      obtain ⟨r, hr, hy, h⟩ := mem_cellsFrom_iff.1 hc'
      obtain ⟨k, -, h1, -, e1⟩ := mem_rowCells_iff.1 hc
      obtain ⟨k', -, h2, -, e2⟩ := mem_rowCells_iff.1 h
      have := (Cell.at_inj.1 (e1.symm.trans e2)).2
      simp only [Fin.mk.injEq] at this
      omega
    · simp

end Sprite

/-- A draw inverts the cells of the sprite and no others. -/
theorem Display.word_draw (d : Display) (s : Sprite) (c : Cell) :
    (d.draw s).word c = if s.cells.contains c then d.word c ^^^ pixelOn else d.word c :=
  Display.word_foldl_flip d (Sprite.nodup_cellsFrom s.x.val s.y.val s.rows) c

end Chip8
