import Columnar.Column.Basic

namespace Columnar

/-!
Rows of values under validity bits.
-/

theorem Values.type_ne_skip (values : Values) : values.type ≠ .skip := by
  cases values <;> simp [type]

theorem Column.type_ne_skip {column : Column} {values : Values}
    (data : column.values = some values) : column.type ≠ .skip := by
  rw [Column.type, data]
  exact values.type_ne_skip

theorem Values.ne_null_of_mem {values : Values} {cell : Cell} (member : cell ∈ values.cells) :
    cell ≠ .null := by
  cases values with
  | integers list => obtain ⟨value, -, rfl⟩ := List.mem_map.mp member; simp
  | doubles list => obtain ⟨value, -, rfl⟩ := List.mem_map.mp member; simp
  | strings list => obtain ⟨value, -, rfl⟩ := List.mem_map.mp member; simp

/-- The cells of values of one type determine them. -/
theorem Values.eq_of_cells {values others : Values} (types : values.type = others.type)
    (same : values.cells = others.cells) : values = others := by
  cases values with
  | integers list =>
      cases others with
      | integers more => exact congrArg _ ((List.map_inj_right fun _ _ => Cell.integer.inj).mp same)
      | doubles more => contradiction
      | strings more => contradiction
  | doubles list =>
      cases others with
      | integers more => contradiction
      | doubles more => exact congrArg _ ((List.map_inj_right fun _ _ => Cell.double.inj).mp same)
      | strings more => contradiction
  | strings list =>
      cases others with
      | integers more => contradiction
      | doubles more => contradiction
      | strings more => exact congrArg _ ((List.map_inj_right fun _ _ => Cell.string.inj).mp same)

namespace Column

variable {values : Values} {validity : Validity} {bits : List Bool}

theorem length_rowsOf (held : validity.toList = bits) (lengths : bits.length = values.length) :
    (rowsOf values validity).length = values.length := by
  simp [rowsOf, held, lengths]

/-- A row is the value in its slot, or null, as its bit says. -/
theorem getElem_rowsOf {row : Nat} (held : validity.toList = bits) (bit : row < bits.length)
    (value : row < values.cells.length) (inside : row < (rowsOf values validity).length) :
    (rowsOf values validity)[row] = if bits[row] then values.cells[row] else .null := by
  subst held
  simp [rowsOf]

end Column

end Columnar
