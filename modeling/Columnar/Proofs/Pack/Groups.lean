import Columnar.Proofs.Pack.Parts

namespace Columnar.Pack

/-!
How chunks are gathered in parts.

A chunk joins the open group if that is empty or stays within the budget, and opens a new one
otherwise.  The parts of a column are the groups that its chunks are gathered in this way.
-/

def groupBytes (group : List Bytes) : Nat := total (group.map List.length)

def gather (maxBytes : Nat) : List Bytes → List Bytes → List (List Bytes)
  | group, [] => if group.isEmpty then [] else [group]
  | group, chunk :: rest =>
      if group.isEmpty || groupBytes group + chunk.length ≤ maxBytes then
        gather maxBytes (group ++ [chunk]) rest
      else group :: gather maxBytes [chunk] rest

section Gathering

variable {maxBytes : Nat} {open_ group chunks : List Bytes}

theorem flatten_gather : (gather maxBytes open_ chunks).flatten = open_ ++ chunks := by
  induction chunks generalizing open_ with
  | nil =>
      rw [gather]
      split
      · rename_i empty
        rw [List.isEmpty_iff.mp empty]
        rfl
      · simp only [List.flatten_cons, List.flatten_nil]
  | cons chunk rest ih =>
      rw [gather]
      split
      · rw [ih, List.append_assoc, List.singleton_append]
      · rw [List.flatten_cons, ih, List.singleton_append]

theorem gather_ne_nil (member : group ∈ gather maxBytes open_ chunks) : group ≠ [] := by
  induction chunks generalizing open_ with
  | nil =>
      rw [gather] at member
      split at member
      · contradiction
      · rename_i some
        rw [List.mem_singleton.mp member]
        exact fun none => some (List.isEmpty_iff.mpr none)
  | cons chunk rest ih =>
      rw [gather] at member
      split at member
      · exact ih member
      · rename_i full
        rcases List.mem_cons.mp member with rfl | later
        · intro none
          exact full (by rw [none]; rfl)
        · exact ih later

/-- A group of several chunks stays within the budget, as it did at each chunk that joined it. -/
theorem gather_within (within : 2 ≤ open_.length → groupBytes open_ ≤ maxBytes)
    (member : group ∈ gather maxBytes open_ chunks) (several : 2 ≤ group.length) :
    groupBytes group ≤ maxBytes := by
  induction chunks generalizing open_ with
  | nil =>
      rw [gather] at member
      split at member
      · contradiction
      · rw [List.mem_singleton.mp member] at several ⊢
        exact within several
  | cons chunk rest ih =>
      rw [gather] at member
      split at member
      · rename_i joins
        refine ih (fun two => ?_) member
        rw [Bool.or_eq_true, decide_eq_true_eq] at joins
        rcases joins with empty | room
        · rw [List.isEmpty_iff.mp empty] at two
          simp only [List.nil_append, List.length_singleton] at two
          omega
        · simpa only [groupBytes, List.map_append, List.map_cons, List.map_nil, total_append,
            total_cons, total_nil, Nat.add_zero] using room
      · rcases List.mem_cons.mp member with rfl | later
        · exact within several
        · refine ih (fun two => ?_) later
          rw [List.length_singleton] at two
          omega

end Gathering

section Runs

variable {codec : Codec} {verify : Bool} {relation : Relation}
  {column : Column} {directory : Location} {index maxBytes : Nat} {type : ColumnType}
  {groups : List (List Bytes)} {progress : Progress} {ranges : List RowRange}

/-- The builder knows the budget and how much of it is taken. -/
structure Progress.Budgets (maxBytes : Nat) (progress : Progress) : Prop where
  budget : progress.part.maxBytes = maxBytes
  taken : progress.part.totalBytes = groupBytes progress.part.chunks.toList

theorem Progress.Budgets.canAdd (budgets : progress.Budgets maxBytes) (chunk : Bytes) :
    progress.part.canAdd chunk.length = (progress.part.chunks.toList.isEmpty ||
      decide (groupBytes progress.part.chunks.toList + chunk.length ≤ maxBytes)) := by
  rw [PartBuilder.canAdd, PartBuilder.isEmpty, budgets.budget, budgets.taken,
    Array.isEmpty_toList]

theorem Progress.Budgets.of_part {next : Progress} (chunk : Bytes)
    (budgets : progress.Budgets maxBytes)
    (part : next.part = progress.part.add chunk ∨ next.part = progress.part.clear.add chunk) :
    next.Budgets maxBytes := by
  rcases part with joined | opened
  · refine ⟨by rw [joined]; exact budgets.budget, ?_⟩
    rw [joined]
    simp only [PartBuilder.add, budgets.taken, groupBytes, Array.toList_push, List.map_append,
      List.map_cons, List.map_nil, total_append, total_cons, total_nil, Nat.add_zero]
  · refine ⟨by rw [opened]; exact budgets.budget, ?_⟩
    rw [opened]
    simp only [PartBuilder.add, PartBuilder.clear, PartBuilder.empty, groupBytes,
      Array.toList_push, List.map_append, List.map_cons, List.map_nil, total_append, total_cons,
      total_nil, Nat.add_zero]

/-- Ranges that can be packed are gathered in groups, behind those that are closed. -/
theorem packRanges_gather {chunkIndex : Nat} {packed : List (Nat × Bytes)}
    (done : packedRanges codec verify relation column index chunkIndex ranges = .ok packed)
    (gathers : progress.Gathers directory index type groups)
    (budgets : progress.Budgets maxBytes) :
    (packRanges codec verify relation column directory chunkIndex ranges progress).Finished
      directory index type
      (groups ++ gather maxBytes progress.part.chunks.toList (packed.map (·.2))) := by
  induction ranges generalizing chunkIndex packed groups progress with
  | nil =>
      cases done
      rw [packRanges, List.map_nil, gather]
      cases empty : progress.part.isEmpty with
      | true =>
          have none : progress.part.chunks.toList.isEmpty = true := by
            rw [Array.isEmpty_toList]
            exact empty
          rw [if_pos none, if_pos rfl, List.append_nil]
          exact ⟨gathers.written, progress.stats, rfl, gathers.ofType, gathers.counted⟩
      | false =>
          have some : ¬ progress.part.chunks.toList.isEmpty = true := by
            rw [Array.isEmpty_toList]
            exact Bool.eq_false_iff.mp empty
          have last := gathers.flush empty
          rw [if_neg some, if_neg Bool.false_ne_true]
          exact ⟨last.written, (progress.flush directory).stats, rfl, last.ofType, last.counted⟩
  | cons range rest ih =>
      rw [packedRanges] at done
      split at done
      · contradiction
      rename_i entry here
      split at done
      · contradiction
      rename_i others later
      cases done
      obtain ⟨size, bytes⟩ := entry
      rw [packRanges, gathers.ofColumn, here, List.map_cons, gather, ← budgets.canAdd]
      cases room : progress.part.canAdd bytes.length with
      | true =>
          obtain ⟨added, part⟩ := gathers.add_room size room
          have whole := ih later added (budgets.of_part bytes (.inl part))
          rw [part] at whole
          simpa only [PartBuilder.add, Array.toList_push, if_true] using whole
      | false =>
          obtain ⟨added, part⟩ := gathers.add_full size room
          have whole := ih later added (budgets.of_part bytes (.inr part))
          rw [part, List.append_assoc] at whole
          simpa only [PartBuilder.add, PartBuilder.clear, PartBuilder.empty, Array.toList_push,
            List.nil_append, List.singleton_append, Bool.false_eq_true, if_false] using whole

end Runs

end Columnar.Pack
