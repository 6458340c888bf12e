namespace Columnar

/-!
Results under a map of their errors, and in sequence.
-/

variable {α β ε φ : Type} (rename : ε → φ)

@[simp] theorem mapError_ok (value : α) :
    (Except.ok value : Except ε α).mapError rename = .ok value := rfl

@[simp] theorem mapError_error (error : ε) :
    (Except.error error : Except ε α).mapError rename = .error (rename error) := rfl

theorem mapError_eq_ok_iff {attempt : Except ε α} {value : α} :
    attempt.mapError rename = .ok value ↔ attempt = .ok value := by
  cases attempt <;> simp

theorem exists_of_bind_ok {attempt : Except ε α} {next : α → Except ε β} {result : β}
    (done : attempt >>= next = .ok result) :
    ∃ value, attempt = .ok value ∧ next value = .ok result := by
  cases attempt with
  | error error => contradiction
  | ok value => exact ⟨value, rfl, done⟩

theorem exists_of_map_ok {attempt : Except ε α} {wrap : α → β} {result : β}
    (done : attempt.map wrap = .ok result) : ∃ value, attempt = .ok value ∧ wrap value = result := by
  cases attempt with
  | error error => contradiction
  | ok value => exact ⟨value, rfl, Except.ok.inj done⟩

theorem map_eq_error_iff {attempt : Except ε α} {wrap : α → β} {error : ε} :
    (do return wrap (← attempt)) = .error error ↔ attempt = .error error := by
  cases attempt with
  | error found => simp [bind, Except.bind]
  | ok value => simp [bind, Except.bind, pure, Except.pure]

theorem mapM_eq_ok {step : α → Except ε β} {image : α → β} {list : List α}
    (each : ∀ entry ∈ list, step entry = .ok (image entry)) :
    list.mapM step = .ok (list.map image) := by
  induction list with
  | nil => rfl
  | cons entry rest ih =>
      rw [List.mapM_cons, each entry List.mem_cons_self,
        ih fun other member => each other (List.mem_cons_of_mem entry member)]
      rfl

/-- When no step can fail in another way and one does fail, they fail together. -/
theorem mapM_eq_error {step : α → Except ε β} {error : ε} {list : List α}
    (each : ∀ entry ∈ list, (∃ value, step entry = .ok value) ∨ step entry = .error error)
    (fails : ∃ entry ∈ list, step entry = .error error) : list.mapM step = .error error := by
  induction list with
  | nil => simp at fails
  | cons entry rest ih =>
      rw [List.mapM_cons]
      rcases each entry List.mem_cons_self with ⟨value, here⟩ | here
      · obtain ⟨other, member, failed⟩ := fails
        rcases List.mem_cons.mp member with rfl | later
        · rw [here] at failed
          contradiction
        · rw [here, ih (fun other member => each other (List.mem_cons_of_mem entry member))
            ⟨other, later, failed⟩]
          rfl
      · rw [here]
        rfl

def error? : Except ε α → Option ε
  | .ok _ => none
  | .error error => some error

theorem error?_eq_some_iff {attempt : Except ε α} {error : ε} :
    error? attempt = some error ↔ attempt = .error error := by
  cases attempt <;> simp [error?]

end Columnar
