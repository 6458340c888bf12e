namespace Columnar

/-!
Totals of counts, such as the rows of the chunks of a part.
-/

def total (counts : List Nat) : Nat := counts.foldl (· + ·) 0

theorem foldl_add (start : Nat) (counts : List Nat) :
    counts.foldl (· + ·) start = start + total counts := by
  unfold total
  induction counts generalizing start with
  | nil => rfl
  | cons count rest ih =>
      rw [List.foldl_cons, List.foldl_cons, ih (start + count), ih (0 + count)]
      omega

@[simp] theorem total_nil : total [] = 0 := rfl

@[simp] theorem total_cons (count : Nat) (rest : List Nat) :
    total (count :: rest) = count + total rest := by
  rw [total, List.foldl_cons, foldl_add, Nat.zero_add]

@[simp] theorem total_append (front back : List Nat) :
    total (front ++ back) = total front + total back := by
  rw [total, List.foldl_append, foldl_add]
  rfl

theorem total_reverse (counts : List Nat) : total counts.reverse = total counts := by
  induction counts with
  | nil => rfl
  | cons count rest ih =>
      rw [List.reverse_cons, total_append, ih, total_cons, total_cons, total_nil, Nat.add_zero,
        Nat.add_comm]

theorem total_replicate (count width : Nat) :
    total (List.replicate count width) = width * count := by
  induction count with
  | zero => rfl
  | succ count ih => rw [List.replicate_succ, total_cons, ih, Nat.mul_succ, Nat.add_comm]

theorem total_map_const {α : Type} (width : Nat) (list : List α) :
    total (list.map fun _ => width) = width * list.length := by
  rw [List.map_const', total_replicate]

theorem total_flatMap {α : Type} (counts : α → List Nat) (list : List α) :
    total (list.flatMap counts) = total (list.map fun entry => total (counts entry)) := by
  induction list with
  | nil => rfl
  | cons entry rest ih => simp [ih]

end Columnar
