import Columnar.Proofs.Pack.Files
import Columnar.Proofs.Read.OutputPaths
import Columnar.Proofs.Read.Schedules
import Columnar.Proofs.Store.BucketObjects

namespace Columnar.Read

/-!
What files of a directory are written over by others.

A text is written to the place that its path resolves to.  Its location ends in its name, which no
part, no catalog and no other column's text has, unless the directory's path goes on behind a mark:
then the name is lost, and all texts are one object.
-/

open Store.BucketUrl (Leads Marked withoutBreaks)

/-- Whether the path of a directory is a bucket's URL with a query or a fragment. -/
def LosesNames (output : String) : Prop :=
  ∃ text, Place.afterScheme? Place.bucketScheme output = some text ∧ Marked text

section Places

variable {directory output : String} {column other : Nat} {found beside place : Place}
  {rest : List Char}

/-- In a bucket a text's path is read behind the directory's. -/
theorem leads_outputPath (behind : Place.afterScheme? Place.bucketScheme output = some rest)
    (named : ∃ char ∈ rest, char ≠ '/')
    (resolved : Place.ofPath directory (outputPath output column) = .ok found) :
    Leads (withoutBreaks (trimmed rest) ++ '/' :: (StoredFile.text column).name.toList) found := by
  have high : ∀ char ∈ '/' :: (StoredFile.text column).name.toList, 0x20 < char.toNat := by
    have free : ∀ char ∈ '/' :: StoredFile.alphabet, 0x20 < char.toNat :=
      List.all_iff_forall_prop.mp (by decide)
    exact fun char member => free char (Store.BucketUrl.slash_name_subset _ member)
  have leads :=
    (Store.BucketUrl.ofPath_bucket_iff (afterScheme?_outputPath behind named column)).mp resolved
  rwa [Store.BucketUrl.significant_append high (by simp)] at leads

theorem marked_trimmed (marked : Marked rest) : Marked (trimmed rest) := by
  rw [← trimmed_append_slashesOf rest, Store.BucketUrl.marked_append] at marked
  exact marked.resolve_right
    (Store.BucketUrl.not_marked_slashes fun char member => eq_slash_of_mem_slashesOf member)

theorem exists_named (marked : Marked rest) : ∃ char ∈ rest, char ≠ '/' := by
  obtain ⟨char, member, mark⟩ := marked
  refine ⟨char, member, ?_⟩
  rcases mark with rfl | rfl <;> decide

/-- Where names are lost, every text is written to the location of the directory itself. -/
theorem sameObject_of_losesNames (loses : LosesNames output)
    (resolved : Place.ofPath directory (outputPath output column) = .ok found) :
    (∀ place, Place.ofPath directory output = .ok place → found.SameObject place) ∧
      ∀ other beside, Place.ofPath directory (outputPath output other) = .ok beside →
        found.SameObject beside := by
  obtain ⟨rest, behind, marked⟩ := loses
  have named := exists_named marked
  have leads := leads_outputPath behind named resolved
  constructor
  · intro place there
    have target : Leads (Store.BucketUrl.significant rest) place :=
      (Store.BucketUrl.ofPath_bucket_iff behind).mp there
    rw [← trimmed_append_slashesOf rest] at target marked
    obtain ⟨front, mark, ⟨back, whole⟩, ending, open'⟩ :=
      Store.BucketUrl.exists_marked_front (fun char member => eq_slash_of_mem_slashesOf member) marked
    rw [whole] at target
    rw [open', List.append_assoc] at leads
    exact leads.sameObject mark target
  · intro other beside there
    have mark : Marked (withoutBreaks (trimmed rest)) :=
      Store.BucketUrl.marked_withoutBreaks.mpr (marked_trimmed marked)
    exact leads.sameObject mark (leads_outputPath behind named there)

/-- The path of a text outside buckets ends in its name, whatever is in front of it. -/
theorem location_outside_buckets
    (outside : Place.afterScheme? Place.bucketScheme (outputPath output column) = none)
    (resolved : Place.ofPath directory (outputPath output column) = .ok found) :
    ∃ above : Location, found.location = above.child (StoredFile.text column).name := by
  simp only [Place.ofPath, outside] at resolved
  split at resolved
  · rename_i key behind
    cases resolved
    -- The scheme is a segment of its own, and no name.
    have scheme : Location.ofPath (Place.memoryScheme ++ String.ofList key) =
        ⟨"memory:" :: (Location.ofPath (String.ofList key)).segments⟩ := by
      have steps : Place.memoryScheme ++ String.ofList key =
          "memory:" ++ "/" ++ ("" ++ "/" ++ String.ofList key) := by
        simp [String.ext_iff, Place.memoryScheme]
      rw [steps, Location.ofPath_join, Location.ofPath_join]
      rfl
    have whole := ofPath_outputPath output column
    rw [afterScheme?_eq_some_iff.mp behind, scheme, Location.child, Location.mk.injEq] at whole
    cases front : (Location.ofPath output).segments with
    | nil =>
        rw [front, List.nil_append, StoredFile.encodeSegment_name, List.cons.injEq] at whole
        have colon : ':' ∈ (StoredFile.text column).name.toList := by
          rw [← whole.1]
          decide
        exact absurd (StoredFile.mem_alphabet colon) (by decide)
    | cons first above =>
        rw [front, List.cons_append, List.cons.injEq] at whole
        exact ⟨⟨above⟩, by rw [Location.child, Location.mk.injEq]; exact whole.2⟩
  · cases resolved
    by_cases slash : (outputPath output column).toList.head? = some '/'
    · exact ⟨Location.ofPath output, by rw [Place.absolute, if_pos slash, ofPath_outputPath]⟩
    · refine ⟨⟨(Location.ofPath directory).segments ++ (Location.ofPath output).segments⟩, ?_⟩
      rw [Place.absolute, if_neg slash, Location.ofPath_join, ofPath_outputPath, Location.child,
        Location.child, List.append_assoc]

theorem location_of_keepsNames (keeps : ¬ LosesNames output)
    (resolved : Place.ofPath directory (outputPath output column) = .ok found) :
    ∃ above : Location, found.location = above.child (StoredFile.text column).name := by
  cases behind : Place.afterScheme? Place.bucketScheme output with
  | none =>
      have outside :=
        @afterScheme?_outputPath_none Place.bucketScheme output "s3:".toList rfl behind column
      exact location_outside_buckets outside resolved
  | some rest =>
      by_cases named : ∃ char ∈ rest, char ≠ '/'
      · have leads := leads_outputPath behind named resolved
        have unmarked : ¬ Marked (withoutBreaks (trimmed rest)) := by
          rw [Store.BucketUrl.marked_withoutBreaks]
          exact fun marked => keeps ⟨rest, behind, marked.mono (trimmed_prefix_self rest).subset⟩
        obtain ⟨above, rfl⟩ := leads.exists_child unmarked (.text column)
        exact ⟨above.location, rfl⟩
      · have only : ∀ char ∈ rest, char = '/' := fun char member =>
          Classical.byContradiction fun differs => named ⟨char, member, differs⟩
        have outside := @afterScheme?_outputPath_slashes Place.bucketScheme output rest
          "s3:".toList rfl (by decide) behind only column
        exact location_outside_buckets outside resolved

/-- A text takes the place of no other file of its directory, and of another column's text exactly
where names are lost. -/
theorem texts_apart (resolved : Place.ofPath directory (outputPath output column) = .ok found) :
    (∀ (place : Place) (file : StoredFile), Place.ofPath directory output = .ok place →
      (∀ other, file ≠ .text other) → ¬ found.SameObject (place.child file.name)) ∧
    ∀ (other : Nat) (beside : Place), other ≠ column →
      Place.ofPath directory (outputPath output other) = .ok beside →
        (found.SameObject beside ↔ LosesNames output) := by
  by_cases loses : LosesNames output
  · obtain ⟨here, others⟩ := sameObject_of_losesNames loses resolved
    refine ⟨fun place file there _ same => ?_, fun other beside _ there => ?_⟩
    · have location := (here place there).2
      exact Store.BucketUrl.child_location_ne place file.name (same.2.symm.trans location)
    · exact iff_of_true (others other beside there) loses
  · obtain ⟨above, named⟩ := location_of_keepsNames loses resolved
    refine ⟨fun place file _ other same => ?_, fun other beside differs there => ?_⟩
    · have location := named.symm.trans same.2
      exact other column (StoredFile.eq_of_child location).symm
    · obtain ⟨otherAbove, otherNamed⟩ := location_of_keepsNames loses there
      refine iff_of_false (fun same => ?_) loses
      have location := otherNamed.symm.trans (same.2.symm.trans named)
      exact differs (StoredFile.text.inj (StoredFile.eq_of_child location))

end Places

/-- The stores behind texts of requested columns, each at the place that its path resolves to. -/
def WroteTexts (job : Job) (before after : Stores) : Prop :=
  ∃ log : List (Nat × Place × Bytes),
    after = log.foldl (fun stores write => stores.put write.2.1 write.2.2) before ∧
    ∀ write ∈ log, write.1 ∈ job.requests ∧
      before.resolve (outputPath job.output write.1) = .ok write.2.1

def Stage.stores : Stage → Stores
  | .working session => session.stores
  | .ended stores _ => stores

section Runs

variable {job : Job} {before stores later : Stores} {column : Nat} {task next : Task}
  {moves : List Move} {stage : Stage}

theorem writePath_ok {path : String} {bytes : Bytes}
    (written : writePath stores path bytes = .ok later) :
    ∃ place, stores.resolve path = .ok place ∧ later = stores.put place bytes := by
  unfold writePath at written
  obtain ⟨place, resolved, kept⟩ := exists_of_bind_ok written
  have put := (mapError_eq_ok_iff _).mp kept
  exact ⟨place, (mapError_eq_ok_iff _).mp resolved, Stores.eq_put_of_write put⟩

/-- A step leaves the stores as they are, or puts the column's text where its path leads. -/
theorem Task.step?_stores (stepped : task.step? job column stores = some (later, next)) :
    later = stores ∨ ∃ place bytes, stores.resolve (outputPath job.output column) = .ok place ∧
      later = stores.put place bytes := by
  cases task with
  | ended result => contradiction
  | opening =>
      rw [Task.step?] at stepped
      split at stepped
      · cases stepped
        exact .inl rfl
      · cases stepped
        exact .inl rfl
  | reading found parts =>
      rw [Task.step?] at stepped
      split at stepped
      · split at stepped
        · cases stepped
          exact .inl rfl
        · cases stepped
          exact .inl rfl
      · split at stepped
        · cases stepped
          exact .inl rfl
        · cases stepped
          exact .inl rfl
  | writing rows text =>
      rw [Task.step?] at stepped
      split at stepped
      · cases stepped
        exact .inl rfl
      · rename_i written
        cases stepped
        obtain ⟨place, resolved, put⟩ := writePath_ok written
        exact .inr ⟨place, _, resolved, put⟩

namespace WroteTexts

theorem refl (job : Job) (before : Stores) : WroteTexts job before before := ⟨[], rfl, by simp⟩

theorem directory (wrote : WroteTexts job before stores) : stores.directory = before.directory := by
  obtain ⟨log, rfl, -⟩ := wrote
  induction log generalizing before with
  | nil => rfl
  | cons write rest ih => rw [List.foldl_cons, ih, Stores.directory_put]

theorem put (wrote : WroteTexts job before stores) (requested : column ∈ job.requests)
    {place : Place} (resolved : stores.resolve (outputPath job.output column) = .ok place)
    (bytes : Bytes) : WroteTexts job before (stores.put place bytes) := by
  have same : before.resolve (outputPath job.output column) = .ok place := by
    rwa [Stores.resolve, wrote.directory] at resolved
  obtain ⟨log, rfl, texts⟩ := wrote
  refine ⟨log ++ [(column, place, bytes)], by rw [List.foldl_append]; rfl, fun write member => ?_⟩
  rcases List.mem_append.mp member with old | new
  · exact texts write old
  · rw [List.mem_singleton.mp new]
    exact ⟨requested, same⟩

end WroteTexts

theorem Stage.wroteTexts_move? {move : Move} {next : Stage}
    (wrote : WroteTexts job before stage.stores) (moved : job.move? move stage = some next) :
    WroteTexts job before next.stores := by
  cases stage with
  | ended stores result => contradiction
  | working session =>
      cases move with
      | advance index =>
          obtain ⟨later, advanced, rfl⟩ := Option.map_eq_some_iff.mp moved
          obtain ⟨task, column, stores, next, -, requested, stepped, rfl⟩ :=
            job.advance?_inv advanced
          rcases Task.step?_stores stepped with rfl | ⟨place, bytes, resolved, rfl⟩
          · exact wrote
          · exact wrote.put (List.mem_of_getElem? requested) resolved bytes
      | join index =>
          obtain ⟨later, joined, rfl⟩ := Option.map_eq_some_iff.mp moved
          obtain ⟨result, id, -, -, -, rfl⟩ := job.join?_inv joined
          obtain ⟨same, -, -⟩ :=
            job.collect_frame id result { session with unjoined := session.unjoined.erase index }
          rw [Stage.stores, same]
          exact wrote
      | conclude =>
          simp only [Job.move?, Job.conclude?] at moved
          split at moved
          · split at moved
            · cases moved
              exact wrote
            · cases moved
              exact wrote
          · contradiction

/-- Whatever moves are made, nothing is written but texts where their paths lead. -/
theorem Stage.wroteTexts (moved : job.after? before moves = some stage) :
    WroteTexts job before stage.stores := by
  have first : WroteTexts job before (Stage.working (job.start before)).stores := .refl job before
  exact @Moves.after?_keeps Stage Move job.move? (fun stage => WroteTexts job before stage.stores)
    _ _ moves (fun wrote step => wroteTexts_move? wrote step) first moved

end Runs

end Columnar.Read

namespace Columnar.StoredFile

open Read (outputPath LosesNames WroteTexts)

/-- No two files have one name.  So no part of a packing is written over by another or by the
catalog, however the tasks take turns, and no text takes the place of a part or of the catalog.  Nor
does it take that of another column's text, unless the directory's path is one behind which names
are lost. -/
theorem written_apart_iff {directory output : String} {column : Nat} {found : Place}
    (resolved : Place.ofPath directory (outputPath output column) = .ok found) :
    Function.Injective name ∧
    (∀ (above other : Place) (file beside : StoredFile),
      (above.child file.name).SameObject (other.child beside.name) → file = beside) ∧
    (∀ (codec : Codec) (options : PackOptions) (table : Relation) (above : Location)
      (ranges : List RowRange),
      ((Pack.partsOf codec options table above ranges).map Prod.fst).Nodup) ∧
    (∀ (codec : Codec) (options : PackOptions) (before : Stores) (path : String) (table : Relation)
      (ids : List Nat) (place : Place) (moves : List Pack.Move) (stage : Pack.Stage),
      before.resolve path = .ok place →
      (Pack.Stage.start codec options before path table ids).after? moves = some stage →
        Pack.WroteOnce before stage.stores place) ∧
    (∀ (job : Read.Job) (before : Stores) (moves : List Read.Move) (stage : Read.Stage),
      job.after? before moves = some stage → WroteTexts job before stage.stores) ∧
    (∀ (place : Place) (file : StoredFile), Place.ofPath directory output = .ok place →
      (∀ other, file ≠ .text other) → ¬ found.SameObject (place.child file.name)) ∧
    ∀ (other : Nat) (beside : Place), other ≠ column →
      Place.ofPath directory (outputPath output other) = .ok beside →
        (found.SameObject beside ↔ LosesNames output) := by
  refine ⟨fun first second same => name_injective same, ?_, Pack.nodup_partsOf, ?_, ?_,
    Read.texts_apart resolved⟩
  · intro above other file beside same
    exact eq_of_child same.2
  · intro codec options before path table ids place moves stage there moved
    exact Pack.Stage.wroteOnce there moved
  · intro job before moves stage moved
    exact Read.Stage.wroteTexts moved

theorem written_apart_twoColumns :
    (part 1 10).name ≠ (part 11 0).name ∧
    (∃ stage, (Pack.Stage.start Pack.repeating Pack.rowByRow (.empty "") "memory://t"
        Pack.onesBesideTwo [7, 4]).after? Pack.inTurns = some stage ∧
      Pack.WroteOnce (.empty "") stage.stores ⟨.memory, ⟨["t"]⟩⟩) ∧
    (∃ stage, Read.besideParts.after? ColumnReader.nullStores Read.crosswise = some stage ∧
      WroteTexts Read.besideParts ColumnReader.nullStores stage.stores) ∧
    (∀ (stores : Stores) (bytes : Bytes),
      (stores.put ⟨.memory, ⟨["t", "column0.txt"]⟩⟩ bytes).object?
          ⟨.memory, ⟨["t", "column1.txt"]⟩⟩ =
        stores.object? ⟨.memory, ⟨["t", "column1.txt"]⟩⟩) ∧
    ¬ Place.SameObject ⟨.memory, ⟨["t", "column0.txt"]⟩⟩ ⟨.memory, ⟨["t", "metadata"]⟩⟩ := by
  have first : Place.ofPath "" (outputPath "memory://t" 0) =
      .ok ⟨.memory, ⟨["t", "column0.txt"]⟩⟩ := rfl
  obtain ⟨injective, -, -, packs, writes, others, texts⟩ := written_apart_iff first
  have packed : ∃ stage, (Pack.Stage.start Pack.repeating Pack.rowByRow (.empty "") "memory://t"
      Pack.onesBesideTwo [7, 4]).after? Pack.inTurns = some stage := ⟨_, rfl⟩
  have written : ∃ stage, Read.besideParts.after? ColumnReader.nullStores Read.crosswise =
      some stage := by
    refine Option.isSome_iff_exists.mp ?_
    decide +kernel
  obtain ⟨packing, moved⟩ := packed
  obtain ⟨writing, went⟩ := written
  have second : Place.ofPath "" (outputPath "memory://t" 1) =
      .ok ⟨.memory, ⟨["t", "column1.txt"]⟩⟩ := rfl
  have keeps : ¬ LosesNames "memory://t" := by
    have outside : Place.afterScheme? Place.bucketScheme "memory://t" = none := by decide
    rintro ⟨text, behind, -⟩
    exact Option.some_ne_none text (behind.symm.trans outside)
  refine ⟨fun same => ?_, ⟨packing, moved, ?_⟩, ⟨writing, went, ?_⟩, ?_, ?_⟩
  · have files := injective same
    simp at files
  · exact packs _ _ _ _ _ _ _ _ _ rfl moved
  · exact writes _ _ _ _ went
  · refine Stores.object?_put_of_not_sameObject ?_
    exact fun same => keeps ((texts 1 _ (by decide) second).mp same)
  · exact others ⟨.memory, ⟨["t"]⟩⟩ .catalog rfl (by simp)

/-- Behind a query the texts of all columns are one object. -/
theorem not_texts_apart :
    ¬ ∀ (directory output : String) (first second : Nat) (found beside : Place), first ≠ second →
      Place.ofPath directory (outputPath output first) = .ok found →
      Place.ofPath directory (outputPath output second) = .ok beside →
        ¬ found.SameObject beside := by
  intro apart
  have first : Place.ofPath "/" (outputPath "s3://b/dir?anon=true" 0) =
      .ok ⟨.bucket "b" false, ⟨["dir"]⟩⟩ := rfl
  have second : Place.ofPath "/" (outputPath "s3://b/dir?anon=true" 1) =
      .ok ⟨.bucket "b" false, ⟨["dir"]⟩⟩ := rfl
  exact apart _ _ 0 1 _ _ (by decide) first second ⟨rfl, rfl⟩

end Columnar.StoredFile
