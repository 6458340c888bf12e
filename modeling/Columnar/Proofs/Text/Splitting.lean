namespace Columnar.Text

/-!
Texts cut at a character.

The pieces hold the character nowhere, and what holds it nowhere only makes the last piece longer.
Cut at its line feeds, a text that is written line by line gives those lines again, and those of its
entries that hold line feeds give several.
-/

section Pieces

variable {separator : Char} {chars back piece : List Char}

theorem not_mem_of_mem_splitOn (member : piece ∈ chars.splitOn separator) : separator ∉ piece := by
  induction chars generalizing piece with
  | nil =>
      rw [List.splitOn_nil, List.mem_singleton] at member
      simp [member]
  | cons char rest ih =>
      rw [List.splitOn_cons_eq_if_modifyHead] at member
      by_cases cut : char = separator
      · rw [if_pos (beq_iff_eq.mpr cut)] at member
        rcases List.mem_cons.mp member with rfl | later
        · exact List.not_mem_nil
        · exact ih later
      · rw [if_neg (by simpa using cut)] at member
        obtain ⟨first, others, pieces⟩ :=
          List.exists_cons_of_ne_nil (List.splitOn_ne_nil separator rest)
        rw [pieces, List.modifyHead_cons] at member
        rcases List.mem_cons.mp member with rfl | later
        · have clean : separator ∉ first := ih (by simp [pieces])
          simp only [List.mem_cons, not_or]
          exact ⟨fun same => cut same.symm, clean⟩
        · exact ih (by simp [pieces, later])

/-- Nothing but separators leaves only empty pieces. -/
theorem eq_nil_of_mem_splitOn (only : ∀ char ∈ chars, char = separator)
    (member : piece ∈ chars.splitOn separator) : piece = [] := by
  induction chars with
  | nil => simpa using member
  | cons char rest ih =>
      obtain ⟨first, others⟩ := List.forall_mem_cons.mp only
      rw [List.splitOn_cons_eq_if_modifyHead, if_pos (beq_iff_eq.mpr first)] at member
      rcases List.mem_cons.mp member with rfl | later
      · rfl
      · exact ih others later

/-- A text without a separator is added to the last piece. -/
theorem splitOn_append_last (chars : List Char) (clean : separator ∉ back) :
    ∃ before last, chars.splitOn separator = before ++ [last] ∧
      (chars ++ back).splitOn separator = before ++ [last ++ back] := by
  induction chars with
  | nil => exact ⟨[], [], List.splitOn_nil separator, by simp [List.splitOn_eq_singleton clean]⟩
  | cons char rest ih =>
      obtain ⟨before, last, split, longer⟩ := ih
      rw [List.cons_append, List.splitOn_cons_eq_if_modifyHead,
        List.splitOn_cons_eq_if_modifyHead, split, longer]
      by_cases cut : char = separator
      · exact ⟨[] :: before, last, if_pos (beq_iff_eq.mpr cut), if_pos (beq_iff_eq.mpr cut)⟩
      · have whole : ¬ (char == separator) = true := by simpa using cut
        rw [if_neg whole, if_neg whole]
        cases before with
        | nil => exact ⟨[], char :: last, rfl, rfl⟩
        | cons first others => exact ⟨(char :: first) :: others, last, rfl, rfl⟩

end Pieces

section Lines

variable {text : String} {lines others entries : List String}

/-- A text of lines, each of which a line feed ends. -/
structure HasLines (text : String) (lines : List String) : Prop where
  joined : text = String.join (lines.map (· ++ "\n"))
  whole : ∀ line ∈ lines, '\n' ∉ line.toList

/-- What stands between the line feeds of a text. -/
def pieces (text : String) : List String := (text.toList.splitOn '\n').map String.ofList

theorem join_line (text : String) (lines : List String) :
    String.join ((text :: lines).map (· ++ "\n")) =
      text ++ "\n" ++ String.join (lines.map (· ++ "\n")) := by
  rw [List.map_cons, String.join_cons]

theorem HasLines.splitOn (has : HasLines text lines) :
    text.toList.splitOn '\n' = lines.map String.toList ++ [[]] := by
  obtain ⟨rfl, whole⟩ := has
  induction lines with
  | nil => rfl
  | cons line rest ih =>
      obtain ⟨first, later⟩ := List.forall_mem_cons.mp whole
      have chars : (String.join ((line :: rest).map (· ++ "\n"))).toList =
          line.toList ++ '\n' :: (String.join (rest.map (· ++ "\n"))).toList := by
        simp [String.toList_append]
      rw [chars, List.splitOn_append_cons_self_of_not_mem first, ih later, List.map_cons,
        List.cons_append]

/-- The lines of a text are determined by it. -/
theorem HasLines.unique (first : HasLines text lines) (second : HasLines text others) :
    lines = others := by
  have same := first.splitOn.symm.trans second.splitOn
  exact (List.map_inj_right fun _ _ => String.toList_inj.mp).mp (List.append_cancel_right same)

theorem flatMap_separator {separator : Char} {cut : List (List Char)} (some : cut ≠ []) :
    cut.flatMap (· ++ [separator]) = [separator].intercalate cut ++ [separator] := by
  induction cut with
  | nil => contradiction
  | cons piece rest ih =>
      cases rest with
      | nil => simp
      | cons next others =>
          rw [List.flatMap_cons, ih (List.cons_ne_nil next others),
            List.intercalate_cons_of_ne_nil (List.cons_ne_nil next others), List.append_assoc,
            List.append_assoc, List.append_assoc]

theorem join_pieces (text : String) :
    String.join ((pieces text).map (· ++ "\n")) = text ++ "\n" := by
  have chars : (String.join ((pieces text).map (· ++ "\n"))).toList =
      (text.toList.splitOn '\n').flatMap (· ++ ['\n']) := by
    simp [pieces, List.flatMap_map, String.toList_append]
  rw [← String.toList_inj, chars, flatMap_separator (List.splitOn_ne_nil _ _),
    List.intercalate_splitOn, String.toList_append]
  rfl

/-- Entries written line by line, of which some may hold line feeds. -/
theorem hasLines_entries (entries : List String) :
    HasLines (String.join (entries.map (· ++ "\n"))) (entries.flatMap pieces) := by
  refine ⟨?_, fun line member => ?_⟩
  · induction entries with
    | nil => rfl
    | cons entry rest ih =>
        rw [join_line, List.flatMap_cons, List.map_append, String.join_append, join_pieces, ih]
  · obtain ⟨entry, -, inside⟩ := List.mem_flatMap.mp member
    obtain ⟨piece, cut, rfl⟩ := List.mem_map.mp inside
    rw [String.toList_ofList]
    exact not_mem_of_mem_splitOn cut

theorem pieces_whole {entry : String} (whole : '\n' ∉ entry.toList) : pieces entry = [entry] := by
  rw [pieces, List.splitOn_eq_singleton whole, List.map_singleton, String.ofList_toList]

theorem length_pieces_eq_one_iff (entry : String) :
    (pieces entry).length = 1 ↔ '\n' ∉ entry.toList := by
  constructor
  · intro one
    obtain ⟨piece, only⟩ := List.length_eq_one_iff.mp one
    have joined := join_pieces entry
    have clean : '\n' ∉ piece.toList := by
      have held : piece ∈ pieces entry := by simp [only]
      obtain ⟨cut, member, rfl⟩ := List.mem_map.mp held
      rw [String.toList_ofList]
      exact not_mem_of_mem_splitOn member
    rw [only, List.map_singleton, String.join_cons, String.join_nil, String.append_empty,
      String.append_left_inj] at joined
    rwa [← joined]
  · intro whole
    rw [pieces_whole whole, List.length_singleton]

theorem length_pieces_pos (entry : String) : 1 ≤ (pieces entry).length := by
  rw [pieces, List.length_map]
  exact List.length_pos_iff.mpr (List.splitOn_ne_nil _ _)

theorem length_le_lines (entries : List String) :
    entries.length ≤ (entries.flatMap pieces).length := by
  induction entries with
  | nil => exact Nat.le_refl 0
  | cons entry rest ih =>
      have here := length_pieces_pos entry
      rw [List.flatMap_cons, List.length_append, List.length_cons]
      omega

/-- There are as many lines as entries exactly when no entry holds a line feed. -/
theorem length_lines_eq_iff (entries : List String) :
    (entries.flatMap pieces).length = entries.length ↔
      ∀ entry ∈ entries, '\n' ∉ entry.toList := by
  induction entries with
  | nil => simp
  | cons entry rest ih =>
      have here := length_pieces_pos entry
      have later := length_le_lines rest
      rw [List.flatMap_cons, List.length_append, List.length_cons, List.forall_mem_cons, ← ih,
        ← length_pieces_eq_one_iff]
      omega

theorem lines_eq_entries (whole : ∀ entry ∈ entries, '\n' ∉ entry.toList) :
    entries.flatMap pieces = entries := by
  induction entries with
  | nil => rfl
  | cons entry rest ih =>
      obtain ⟨first, later⟩ := List.forall_mem_cons.mp whole
      rw [List.flatMap_cons, pieces_whole first, ih later, List.singleton_append]

end Lines

end Columnar.Text
