import Columnar.Proofs.Pack.RoundTrip
import Mathlib.Order.Bounds.Basic

namespace Columnar.Pack

/-!
Packing a column writes as few parts as its budget allows.

The chunks of any cut into parts are gathered group by group.  The open group takes in all of the
next group of the cut, or is closed inside of it; then what is left of that group fits in the group
opened there, so a group of the cut never closes more than one.
-/

/-- A single chunk may exceed the budget, several together may not. -/
def Fits (maxBytes : Nat) (group : List Bytes) : Prop :=
  group.length ≤ 1 ∨ groupBytes group ≤ maxBytes

/-- A way to cut chunks into consecutive groups that could be parts. -/
structure Cut (maxBytes : Nat) (chunks : List Bytes) (groups : List (List Bytes)) : Prop where
  joined : groups.flatten = chunks
  nonempty : ∀ group ∈ groups, group ≠ []
  fits : ∀ group ∈ groups, Fits maxBytes group

section Gathering

variable {maxBytes : Nat} {chunk : Bytes} {chunks open_ group : List Bytes}
  {groups : List (List Bytes)}

theorem groupBytes_cons (chunk : Bytes) (group : List Bytes) :
    groupBytes (chunk :: group) = chunk.length + groupBytes group := by
  rw [groupBytes, List.map_cons, total_cons, groupBytes]

theorem groupBytes_append (group more : List Bytes) :
    groupBytes (group ++ more) = groupBytes group + groupBytes more := by
  simp only [groupBytes, List.map_append, total_append]

theorem Fits.tail (fits : Fits maxBytes (chunk :: group)) : Fits maxBytes group := by
  refine fits.imp (fun few => ?_) fun short => ?_
  · exact Nat.le_trans (Nat.le_succ _) few
  · exact Nat.le_trans (Nat.le_add_left _ _) (groupBytes_cons chunk group ▸ short)

/-- A chunk has room in the open group if they fit together, whatever comes behind it. -/
theorem Fits.room (fits : Fits maxBytes (open_ ++ chunk :: group)) :
    (open_.isEmpty || decide (groupBytes open_ + chunk.length ≤ maxBytes)) = true := by
  rw [Bool.or_eq_true, List.isEmpty_iff, decide_eq_true_eq]
  rcases fits with few | short
  · left
    rw [List.length_append, List.length_cons] at few
    exact List.eq_nil_of_length_eq_zero (by omega)
  · right
    rw [groupBytes_append, groupBytes_cons] at short
    omega

theorem gather_append (open_ rest : List Bytes) (fits : Fits maxBytes (open_ ++ group)) :
    gather maxBytes open_ (group ++ rest) = gather maxBytes (open_ ++ group) rest := by
  induction group generalizing open_ with
  | nil => rw [List.nil_append, List.append_nil]
  | cons chunk more ih =>
      rw [List.cons_append, gather, if_pos fits.room]
      rw [List.append_cons open_ chunk more] at fits ⊢
      exact ih _ fits

theorem gather_group (open_ rest : List Bytes) (fits : Fits maxBytes group) :
    gather maxBytes open_ (group ++ rest) = gather maxBytes (open_ ++ group) rest ∨
      ∃ before after, after ≠ [] ∧
        gather maxBytes open_ (group ++ rest) =
          (open_ ++ before) :: gather maxBytes after rest := by
  induction group generalizing open_ with
  | nil =>
      left
      rw [List.nil_append, List.append_nil]
  | cons chunk more ih =>
      rw [List.cons_append, gather]
      split
      · rcases ih (open_ ++ [chunk]) fits.tail with whole | ⟨before, after, left, closed⟩
        · exact .inl (by rw [whole, ← List.append_cons])
        · exact .inr ⟨chunk :: before, after, left, by rw [closed, ← List.append_cons]⟩
      · refine .inr ⟨[], chunk :: more, List.cons_ne_nil _ _, ?_⟩
        rw [List.append_nil, gather_append [chunk] rest fits, List.singleton_append]

theorem length_gather_le_succ (some : open_ ≠ []) (fits : ∀ group ∈ groups, Fits maxBytes group) :
    (gather maxBytes open_ groups.flatten).length ≤ groups.length + 1 := by
  induction groups generalizing open_ with
  | nil =>
      rw [List.flatten_nil, gather, if_neg fun none => some (List.isEmpty_iff.mp none)]
      exact Nat.le_refl 1
  | cons group rest ih =>
      obtain ⟨here, later⟩ := List.forall_mem_cons.mp fits
      rw [List.flatten_cons, List.length_cons]
      rcases gather_group open_ rest.flatten here with whole | ⟨before, after, left, closed⟩
      · rw [whole]
        exact Nat.le_succ_of_le (ih (List.append_ne_nil_of_left_ne_nil some group) later)
      · rw [closed, List.length_cons]
        exact Nat.succ_le_succ (ih left later)

theorem cut_gather (maxBytes : Nat) (chunks : List Bytes) :
    Cut maxBytes chunks (gather maxBytes [] chunks) where
  joined := by rw [flatten_gather, List.nil_append]
  nonempty _ := gather_ne_nil
  fits group member := by
    by_cases few : group.length ≤ 1
    · exact .inl few
    · exact .inr (gather_within (by simp) member (by omega))

/-- No cut has fewer groups than the chunks are gathered in. -/
theorem Cut.length_gather_le (cut : Cut maxBytes chunks groups) :
    (gather maxBytes [] chunks).length ≤ groups.length := by
  obtain ⟨rfl, nonempty, fits⟩ := cut
  cases groups with
  | nil => exact Nat.le_refl 0
  | cons group rest =>
      obtain ⟨here, later⟩ := List.forall_mem_cons.mp fits
      rw [List.flatten_cons, gather_append [] rest.flatten here, List.nil_append,
        List.length_cons]
      exact length_gather_le_succ (nonempty group List.mem_cons_self) later

end Gathering

section Runs

variable {codec : Codec} {options : PackOptions} {relation : Relation} {column : Column}
  {ranges : List RowRange} {index : Nat} {packed : List (Nat × Bytes)}

/-- A data column whose chunks can all be packed is written in the least number of parts that its
chunks can be cut into. -/
theorem column_fewest_parts (directory : Location) (data : column.type ≠ .skip)
    (done : packedRanges codec options.verify relation column index 0 ranges = .ok packed) :
    ∃ stats, (Pack.column codec options relation directory ranges index column).result = .ok stats ∧
      (Pack.column codec options relation directory ranges index column).writes.length =
        stats.parts ∧
      IsLeast {count | ∃ groups, Cut options.partMaxBytes (packed.map (·.2)) groups ∧
        groups.length = count} stats.parts := by
  obtain ⟨writes, stats, ended, -, parts⟩ := column_gathered directory data done
  refine ⟨stats, ended, ?_, ⟨_, cut_gather _ _, parts.symm⟩, ?_⟩
  · rw [writes, partWrites, List.length_map, List.length_zipIdx, parts]
  · rintro count ⟨groups, cut, rfl⟩
    rw [parts]
    exact cut.length_gather_le

/-- Chunks of one row take 40 bytes each, so that two of them fill a part. -/
theorem column_fewest_parts_threeRows :
    ∃ packed, packedRanges (.cascade 3) false threeRows threeRows.columns[0] 0 0
        [⟨0, 1⟩, ⟨1, 2⟩, ⟨2, 3⟩] = .ok packed ∧
      IsLeast {count | ∃ groups, Cut 80 (packed.map (·.2)) groups ∧ groups.length = count} 2 := by
  have packs : (packedRanges (.cascade 3) false threeRows threeRows.columns[0] 0 0
      [⟨0, 1⟩, ⟨1, 2⟩, ⟨2, 3⟩]).isOk = true := by cbv
  have parts : ((Pack.column (.cascade 3) { partMaxBytes := 80 } threeRows ⟨["t"]⟩
      [⟨0, 1⟩, ⟨1, 2⟩, ⟨2, 3⟩] 0 threeRows.columns[0]).result.map (·.parts)) = .ok 2 := by cbv
  cases done : packedRanges (.cascade 3) false threeRows threeRows.columns[0] 0 0
      [⟨0, 1⟩, ⟨1, 2⟩, ⟨2, 3⟩] with
  | error error =>
      rw [done] at packs
      contradiction
  | ok packed =>
      obtain ⟨stats, ended, -, least⟩ := @column_fewest_parts (.cascade 3) { partMaxBytes := 80 }
        threeRows threeRows.columns[0] _ _ _ ⟨["t"]⟩ (by decide) done
      rw [ended] at parts
      have two : stats.parts = 2 := Except.ok.inj parts
      rw [two] at least
      exact ⟨packed, rfl, least⟩

end Runs

end Columnar.Pack
