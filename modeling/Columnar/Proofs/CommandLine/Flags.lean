import Columnar.CommandLine.Flags

namespace Columnar.CommandLine

/-!
Options and other arguments, in any mixture.

A group is an option on a command line together with the value that it takes.  However groups and
other arguments are mixed, reading them depends on the groups in their order and on the others in
theirs: the first group at fault is reported, and without one the last group of each option counts.
-/

/-- An argument that begins with two dashes. -/
def Dashed (argument : String) : Prop := ['-', '-'] <+: argument.toList

instance (argument : String) : Decidable (Dashed argument) :=
  inferInstanceAs (Decidable (['-', '-'] <+: argument.toList))

def optionNames : List String := "--header" :: "--verify" :: ValueFlag.all.map ValueFlag.name

/-- An option with the value that it takes, whatever that looks like, or an argument that looks like
an option and is none. -/
inductive Group where
  | valued (flag : ValueFlag) (text : String)
  | header
  | verify
  | unknown (name : String) (dashed : Dashed name) (foreign : name ∉ optionNames)
deriving DecidableEq

/-- Whether a text is a value of an option, and what is reported if it is none. -/
def ValueFlag.fault? (flag : ValueFlag) (text : String) : Option FlagFault :=
  let count (limit : Nat) : Option FlagFault :=
    if (Decimal.readNat? limit text).isSome then none else some (.badNumber flag text)
  match flag with
  | .delimiter =>
      if text = "\\t" ∨ text = "tab" ∨ text.utf8ByteSize = 1 then none
      else some (.badDelimiter text)
  | .chunkRows | .partBytes => count maxCount
  | .cascadeDepth => count maxWord
  | .logLevel => none

namespace Group

def arguments : Group → List String
  | .valued flag text => [flag.name, text]
  | .header => ["--header"]
  | .verify => ["--verify"]
  | .unknown name _ _ => [name]

def fault? : Group → Option FlagFault
  | .valued flag text => flag.fault? text
  | .header | .verify => none
  | .unknown name _ _ => some (.unknownOption name)

/-- The value that a group gives an option. -/
def text? (flag : ValueFlag) : Group → Option String
  | .valued other text => if other = flag then some text else none
  | _ => none

end Group

/-- Groups and other arguments, mixed without changing the order of either. -/
inductive Mixture : List Group → List String → List String → Prop
  | nil : Mixture [] [] []
  | group {groups : List Group} {others arguments : List String} (group : Group)
      (mixture : Mixture groups others arguments) :
      Mixture (group :: groups) others (group.arguments ++ arguments)
  | other {groups : List Group} {others arguments : List String} {argument : String}
      (plain : ¬ Dashed argument) (mixture : Mixture groups others arguments) :
      Mixture groups (argument :: others) (argument :: arguments)

/-- The value of the last group of an option. -/
def last? (flag : ValueFlag) (groups : List Group) : Option String :=
  (groups.filterMap (Group.text? flag)).getLast?

/-- The byte that a delimiter's text names. -/
def delimiterOf (text : String) : UInt8 :=
  if text = "\\t" ∨ text = "tab" then 0x09 else (Text.encode text).headD 0

def countOf (limit : Nat) (text : String) : Nat := (Decimal.readNat? limit text).getD 0

namespace Flags

/-- What groups make of what is set already: the last value of each option counts. -/
def settled (flags : Flags) (groups : List Group) : Flags :=
  { flags with
    options := {
      chunkRows := ((last? .chunkRows groups).map (countOf maxCount)).getD flags.options.chunkRows
      partMaxBytes :=
        ((last? .partBytes groups).map (countOf maxCount)).getD flags.options.partMaxBytes
      cascadeDepth :=
        ((last? .cascadeDepth groups).map (countOf maxWord)).getD flags.options.cascadeDepth
      verify := flags.options.verify || decide (Group.verify ∈ groups)
      format := {
        delimiter :=
          ((last? .delimiter groups).map delimiterOf).getD flags.options.format.delimiter
        header := flags.options.format.header || decide (Group.header ∈ groups) } }
    logLevel := (last? .logLevel groups).or flags.logLevel }

end Flags

section Steps

variable (flags : Flags) (group : Group) (groups : List Group)

theorem last?_cons (flag : ValueFlag) :
    last? flag (group :: groups) = (last? flag groups).or (group.text? flag) := by
  rw [last?, last?, List.filterMap_cons]
  cases group.text? flag with
  | none => simp
  | some text => cases found : (groups.filterMap (Group.text? flag)).getLast? <;>
      simp [List.getLast?_cons, found]

theorem last?_singleton (flag : ValueFlag) : last? flag [group] = group.text? flag := by
  rw [last?_cons]
  rfl

theorem settled_cons :
    flags.settled (group :: groups) = (flags.settled [group]).settled groups := by
  have later {α : Type} (flag : ValueFlag) (value : String → α) (current : α) :
      ((last? flag (group :: groups)).map value).getD current =
        ((last? flag groups).map value).getD (((last? flag [group]).map value).getD current) := by
    rw [last?_cons, last?_singleton]
    cases last? flag groups <;> rfl
  have level : (last? .logLevel (group :: groups)).or flags.logLevel =
      (last? .logLevel groups).or ((last? .logLevel [group]).or flags.logLevel) := by
    rw [last?_cons, last?_singleton, Option.or_assoc]
  have marked (mark : Group) (set : Bool) : (set || decide (mark ∈ group :: groups)) =
      ((set || decide (mark ∈ [group])) || decide (mark ∈ groups)) := by
    simp [Bool.or_assoc]
  unfold Flags.settled
  simp only [later, level, marked]

end Steps

section Options

theorem ofName?_name (flag : ValueFlag) : ValueFlag.ofName? flag.name = some flag := by
  cases flag <;> decide

theorem ofName?_eq_none {argument : String} (foreign : argument ∉ optionNames) :
    ValueFlag.ofName? argument = none := by
  rw [ValueFlag.ofName?, List.find?_eq_none]
  intro flag member named
  exact foreign (List.mem_cons_of_mem _ (List.mem_cons_of_mem _
    (List.mem_map.mpr ⟨flag, member, of_decide_eq_true named⟩)))

theorem dashed_of_mem {argument : String} (member : argument ∈ optionNames) : Dashed argument := by
  revert argument
  decide

end Options

theorem readNumber_eq (flag : ValueFlag) (limit : Nat) (text : String) :
    readNumber flag limit text =
      if (Decimal.readNat? limit text).isSome then .ok (countOf limit text)
      else .error (.badNumber flag text) := by
  unfold readNumber countOf
  cases Decimal.readNat? limit text <;> rfl

theorem readDelimiter_eq (text : String) :
    readDelimiter text =
      if text = "\\t" ∨ text = "tab" ∨ text.utf8ByteSize = 1 then .ok (delimiterOf text)
      else .error (.badDelimiter text) := by
  have size : (Text.encode text).length = text.utf8ByteSize := by
    rw [Text.encode, Array.length_toList]
    rfl
  unfold readDelimiter delimiterOf
  rw [← size]
  by_cases tab : text = "\\t" ∨ text = "tab"
  · have : text = "\\t" ∨ text = "tab" ∨ (Text.encode text).length = 1 := by grind
    rw [if_pos tab, if_pos tab, if_pos this]
  · rw [if_neg tab, if_neg tab]
    rw [not_or] at tab
    simp only [tab, false_or]
    match Text.encode text with
    | [] => rfl
    | [_] => rfl
    | _ :: _ :: _ => simp

theorem set_eq (flags : Flags) (flag : ValueFlag) (text : String) :
    flags.set flag text =
      match flag.fault? text with
      | some fault => .error fault
      | none => .ok (flags.settled [.valued flag text]) := by
  cases flag with
  | delimiter =>
      simp only [Flags.set, readDelimiter_eq, ValueFlag.fault?]
      split <;>
        simp [Flags.settled, last?_singleton, Group.text?, pure, Except.pure, bind, Except.bind]
  | chunkRows | partBytes | cascadeDepth =>
      simp only [Flags.set, readNumber_eq, ValueFlag.fault?]
      split <;>
        simp [Flags.settled, last?_singleton, Group.text?, pure, Except.pure, bind, Except.bind]
  | logLevel => simp [Flags.set, ValueFlag.fault?, Flags.settled, last?_singleton, Group.text?]

section Reading

variable {groups : List Group} {others arguments : List String}

theorem readOnto_foreign (flags : Flags) {argument : String} (foreign : argument ∉ optionNames)
    (rest : List String) :
    flags.readOnto (argument :: rest) =
      if Dashed argument then .error (.unknownOption argument)
      else { flags with positional := flags.positional ++ [argument] }.readOnto rest := by
  have notHeader : argument ≠ "--header" := by
    rintro rfl
    exact foreign (by decide)
  have notVerify : argument ≠ "--verify" := by
    rintro rfl
    exact foreign (by decide)
  rw [Flags.readOnto, ofName?_eq_none foreign]
  simp only [if_neg notHeader, if_neg notVerify, List.isPrefixOf_iff_prefix]
  rfl

theorem readOnto_group (flags : Flags) (group : Group) (rest : List String) :
    flags.readOnto (group.arguments ++ rest) =
      match group.fault? with
      | some fault => .error fault
      | none => (flags.settled [group]).readOnto rest := by
  cases group with
  | valued flag text =>
      simp only [Group.arguments, List.cons_append, List.nil_append, Flags.readOnto, ofName?_name,
        set_eq, Group.fault?]
      cases flag.fault? text <;> rfl
  | header =>
      have valueless : ValueFlag.ofName? "--header" = none := by decide
      simp [Group.arguments, Flags.readOnto, valueless, Group.fault?, Flags.settled,
        Flags.withHeader, last?_singleton, Group.text?]
  | verify =>
      have valueless : ValueFlag.ofName? "--verify" = none := by decide
      simp [Group.arguments, Flags.readOnto, valueless, Group.fault?, Flags.settled,
        Flags.withVerify, last?_singleton, Group.text?]
  | unknown name dashed foreign => exact (readOnto_foreign flags foreign rest).trans (if_pos dashed)

theorem readOnto_other (flags : Flags) {argument : String} (plain : ¬ Dashed argument)
    (rest : List String) :
    flags.readOnto (argument :: rest) =
      { flags with positional := flags.positional ++ [argument] }.readOnto rest :=
  (readOnto_foreign flags (fun member => plain (dashed_of_mem member)) rest).trans (if_neg plain)

/-- Reading a mixture stops at the first group at fault, or goes on behind it with what its groups
set and its other arguments. -/
theorem readOnto_mixture (mixture : Mixture groups others arguments) (flags : Flags)
    (rest : List String) :
    flags.readOnto (arguments ++ rest) =
      match groups.findSome? Group.fault? with
      | some fault => .error fault
      | none =>
          { flags.settled groups with positional := flags.positional ++ others }.readOnto rest := by
  induction mixture generalizing flags with
  | nil => simp [Flags.settled, last?]
  | group group mixture ih =>
      rename_i groups others arguments
      rw [List.append_assoc, readOnto_group, List.findSome?_cons, settled_cons flags group groups]
      cases group.fault? with
      | some fault => rfl
      | none => exact ih (flags.settled [group])
  | other plain mixture ih =>
      rw [List.cons_append, readOnto_other flags plain, ih, List.append_assoc]
      rfl

/-- Every command line is a mixture, or one and behind it an option without its value. -/
theorem exists_mixture : ∀ arguments : List String, ∃ groups others front last,
    Mixture groups others front ∧ arguments = front ++ last ∧
      (last = [] ∨ ∃ flag : ValueFlag, last = [flag.name])
  | [] => ⟨[], [], [], [], .nil, rfl, .inl rfl⟩
  | argument :: rest => by
      obtain ⟨groups, others, front, last, mixture, split, short⟩ := exists_mixture rest
      by_cases option : argument ∈ optionNames
      · rcases List.mem_cons.mp option with rfl | option
        · exact ⟨_, _, _, last, .group .header mixture, by simp [split, Group.arguments], short⟩
        rcases List.mem_cons.mp option with rfl | option
        · exact ⟨_, _, _, last, .group .verify mixture, by simp [split, Group.arguments], short⟩
        obtain ⟨flag, -, rfl⟩ := List.mem_map.mp option
        match rest with
        | [] => exact ⟨[], [], [], [flag.name], .nil, rfl, .inr ⟨flag, rfl⟩⟩
        | text :: more =>
            obtain ⟨groups, others, front, last, mixture, split, short⟩ := exists_mixture more
            exact ⟨_, _, _, last, .group (.valued flag text) mixture,
              by simp [split, Group.arguments], short⟩
      · by_cases dashed : Dashed argument
        · exact ⟨_, _, _, last, .group (.unknown argument dashed option) mixture,
            by simp [split, Group.arguments], short⟩
        · exact ⟨_, _, _, last, .other dashed mixture, by simp [split], short⟩

/-- However options and other arguments are mixed, the first option at fault is reported; without
one, the other arguments come out in their order and the last value of each option counts.  A valid
command line that ends in an option without its value is reported for that option. -/
theorem read_mixture (mixture : Mixture groups others arguments) :
    (∀ fault, groups.findSome? Group.fault? = some fault → Flags.read arguments = .error fault) ∧
      (groups.findSome? Group.fault? = none →
        Flags.read arguments = .ok { ({} : Flags).settled groups with positional := others } ∧
          ∀ flag : ValueFlag,
            Flags.read (arguments ++ [flag.name]) = .error (.missingValue flag)) ∧
      ∀ rearranged, Mixture groups others rearranged →
        Flags.read rearranged = Flags.read arguments := by
  have outcome {arguments : List String} (mixture : Mixture groups others arguments) :
      Flags.read arguments =
        match groups.findSome? Group.fault? with
        | some fault => .error fault
        | none => .ok { ({} : Flags).settled groups with positional := others } := by
    have run := readOnto_mixture mixture {} []
    rwa [List.append_nil] at run
  refine ⟨fun fault faulty => ?_, fun valid => ⟨?_, fun flag => ?_⟩, fun rearranged other => ?_⟩
  · rw [outcome mixture, faulty]
  · rw [outcome mixture, valid]
  · rw [Flags.read, readOnto_mixture mixture {} [flag.name], valid]
    simp only [Flags.readOnto, ofName?_name]
  · rw [outcome other, outcome mixture]

end Reading

/-- An option for a value, an option twice, and other arguments between them. -/
theorem mixture_repeatedRows :
    Mixture [.valued .logLevel "--verify", .valued .chunkRows "5", .valued .chunkRows "7", .header]
      ["pack", "in.csv"]
      ["pack", "--log-level", "--verify", "--chunk-rows", "5", "in.csv", "--chunk-rows", "7",
        "--header"] :=
  .other (by decide) <| .group (.valued .logLevel "--verify") <| .group (.valued .chunkRows "5") <|
    .other (by decide) <| .group (.valued .chunkRows "7") <| .group .header .nil

/-- A count that is none, and behind it an option that is none. -/
theorem mixture_badRows :
    Mixture [.valued .chunkRows "-5", .unknown "--rows" (by decide) (by decide)] ["info"]
      ["--chunk-rows", "-5", "info", "--rows"] :=
  .group (.valued .chunkRows "-5") <| .other (by decide) <|
    .group (.unknown "--rows" (by decide) (by decide)) .nil

theorem read_mixture_repeatedRows :
    Flags.read ["pack", "--log-level", "--verify", "--chunk-rows", "5", "in.csv", "--chunk-rows",
        "7", "--header"] =
      .ok
        { options := { chunkRows := 7, format := { header := true } },
          logLevel := some "--verify",
          positional := ["pack", "in.csv"] } ∧
      Flags.read ["pack", "--log-level", "--verify", "--chunk-rows", "5", "in.csv", "--chunk-rows",
        "7", "--header", "--delimiter"] = .error (.missingValue .delimiter) ∧
      Flags.read ["--chunk-rows", "-5", "info", "--rows"] = .error (.badNumber .chunkRows "-5") :=
  have valid := (read_mixture mixture_repeatedRows).2.1 (by decide)
  ⟨valid.1.trans (congrArg Except.ok (by decide)), valid.2 .delimiter,
    (read_mixture mixture_badRows).1 _ (by decide)⟩

end Columnar.CommandLine
