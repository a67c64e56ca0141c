import Timetable.Command
import Timetable.Proofs.InstantReading

namespace Timetable

/-- What a command line that lists instants asks for. -/
structure Query where
  direction : Direction
  pattern : String
  start : String
  count : Nat
  inclusive : Bool
  deriving Repr, DecidableEq

def Direction.commandName : Direction → String
  | .forward => "next"
  | .backward => "prev"

namespace Query

/-- Whether the arguments of a command ask for this. -/
structure GivenBy (q : Query) (a : Arguments) : Prop where
  pattern : a.operand? = some q.pattern
  start : a.value? "--from" = some q.start
  count : (a.value? "--count").bind readCount? = some q.count
  inclusive : (a.value? "--inclusive").isSome = q.inclusive

/-- Whether a command line asks for this, in whatever order and form it gives its options. -/
def AskedBy (q : Query) (line : List String) : Prop :=
  ∃ args a, line = q.direction.commandName :: args ∧
    Arguments.ofList? ⟨["--from", "--count"], ["--inclusive"]⟩ args = some a ∧ q.GivenBy a

variable {q : Query} {a : Arguments} {line args : List String}

theorem GivenBy.listOfArgs? (h : q.GivenBy a) (dir : Direction)
    (ha : Arguments.ofList? ⟨["--from", "--count"], ["--inclusive"]⟩ args = some a) :
    Command.listOfArgs? dir args = (Instant.ofText? q.start).map fun t =>
      .list dir q.pattern (some t) q.count q.inclusive := by
  obtain ⟨text, htext, hcount⟩ := Option.bind_eq_some_iff.mp h.count
  simp only [Command.listOfArgs?, ha, h.pattern, h.start, htext, hcount, h.inclusive,
    Command.optional?, Option.bind_eq_bind, Option.bind_some, Option.map_some, Option.pure_def]
  cases Instant.ofText? q.start <;> rfl

theorem AskedBy.ofArgs? (h : q.AskedBy line) :
    Command.ofArgs? line = (Instant.ofText? q.start).map fun t =>
      .list q.direction q.pattern (some t) q.count q.inclusive := by
  obtain ⟨args, a, rfl, ha, hgiven⟩ := h
  rw [← hgiven.listOfArgs? q.direction ha]
  cases q.direction <;> rfl

theorem AskedBy.count_mem (h : q.AskedBy line) : 1 ≤ q.count ∧ q.count ≤ countLimit := by
  obtain ⟨args, a, -, -, hgiven⟩ := h
  obtain ⟨text, -, hread⟩ := Option.bind_eq_some_iff.mp hgiven.count
  obtain ⟨⟨-, -, hpos, hmax⟩, hvalue⟩ := Option.ite_none_right_eq_some.mp hread
  rw [← Option.some.inj hvalue]
  exact ⟨hpos, hmax⟩

end Query

theorem readCount?_decimalText {n : Nat} (hpos : 1 ≤ n) (hmax : n ≤ countLimit) :
    readCount? (decimalText n) = some n := by
  have hdigits : ∀ c ∈ decimalDigits n, c.isDigit = true := fun c => isDigit_of_mem_decimalDigits
  have hall : (decimalDigits n).all Char.isDigit = true := List.all_eq_true.mpr hdigits
  rw [readCount?, decimalText, String.toList_ofList]
  split
  next rest he =>
    have hplus := hdigits '+' (he ▸ List.mem_cons_self)
    cases hplus
  next =>
    simp only [decimalValue_decimalDigits]
    exact if_pos ⟨decimalDigits_ne_nil n, hall, hpos, hmax⟩

theorem toList_joined (name value : String) :
    (name ++ "=" ++ value).toList = name.toList ++ '=' :: value.toList := by
  rw [String.toList_append, String.toList_append, List.append_assoc]
  rfl

/-- An equals sign joins a value to its option's name. -/
theorem splitOption_joined {name : String} (value : String) (h : '=' ∉ name.toList) :
    splitOption (name ++ "=" ++ value) = (name, some value) := by
  have hname : ∀ c ∈ name.toList, decide (c ≠ '=') = true := fun c hc =>
    decide_eq_true fun he => h (he ▸ hc)
  simp only [splitOption, toList_joined, List.dropWhile_append_of_pos hname,
    List.takeWhile_append_of_pos hname, List.dropWhile_cons, List.takeWhile_cons]
  simp

theorem isOption_joined {name : String} (value : String) (h : isOption name = true) :
    isOption (name ++ "=" ++ value) = true := by
  unfold isOption at h ⊢
  rw [toList_joined]
  split at h
  next c cs he =>
    rw [he]
    rfl
  next => cases h

theorem isOption_eq_false {arg : String} (h : arg.toList.head? ≠ some '-') :
    isOption arg = false := by
  unfold isOption
  split
  next he =>
    rw [he] at h
    exact absurd rfl h
  next => rfl

/-- What does not look like an option can stand anywhere. -/
theorem Arguments.scan?_operand (names : OptionNames) {arg : String} (rest : List String)
    (h : arg.toList.head? ≠ some '-') :
    scan? names (arg :: rest) = (scan? names rest).map (addOperand arg) := by
  have hne : arg ≠ "--" := by
    rintro rfl
    exact h (by decide)
  rw [scan?, if_neg hne, isOption_eq_false h, Bool.not_false, if_pos rfl]

theorem Arguments.scan?_joined {names : OptionNames} {name : String} (value : String)
    (rest : List String) (hname : names.valued.contains name = true) (hopt : isOption name = true)
    (heq : '=' ∉ name.toList) :
    scan? names ((name ++ "=" ++ value) :: rest) =
      (scan? names rest).map (addOption name value) := by
  have hne : name ++ "=" ++ value ≠ "--" := by
    intro he
    have hmem : '=' ∈ (name ++ "=" ++ value).toList := by
      rw [toList_joined]
      exact List.mem_append_right _ List.mem_cons_self
    rw [he] at hmem
    revert hmem
    decide
  rw [scan?, if_neg hne, isOption_joined value hopt, splitOption_joined value heq]
  simp only [Bool.not_true, Bool.false_eq_true, if_false, hname, if_true]

namespace Query

/-- A command line for a query. -/
def commandLine (q : Query) : List String :=
  q.direction.commandName :: ("--from" ++ "=" ++ q.start) ::
    ("--count" ++ "=" ++ decimalText q.count) ::
      ((if q.inclusive then ["--inclusive"] else []) ++ ["--", q.pattern])

/-- The options of that command line. -/
def options (q : Query) : List (String × String) :=
  ("--from", q.start) :: ("--count", decimalText q.count) ::
    if q.inclusive then [("--inclusive", "")] else []

theorem nodup_options (q : Query) : (q.options.map Prod.fst).Nodup := by
  unfold options
  cases q.inclusive <;> simp

/-- A command line asks for the query if sorting it gives the query's parts. -/
theorem askedBy_of_scan {q : Query} {args : List String} (hpos : 1 ≤ q.count)
    (hmax : q.count ≤ countLimit)
    (hscan : Arguments.scan? ⟨["--from", "--count"], ["--inclusive"]⟩ args =
      some ⟨[q.pattern], q.options⟩) : q.AskedBy (q.direction.commandName :: args) := by
  have hlist : Arguments.ofList? ⟨["--from", "--count"], ["--inclusive"]⟩ args =
      some ⟨[q.pattern], q.options⟩ := by
    rw [Arguments.ofList?, hscan]
    simp [guard, q.nodup_options]
  refine ⟨args, _, rfl, hlist, ⟨rfl, rfl, readCount?_decimalText hpos hmax, ?_⟩⟩
  unfold options
  cases q.inclusive <;> rfl

/-- Every query for a number of instants that can be asked for has a command line. -/
theorem askedBy_commandLine (q : Query) (hpos : 1 ≤ q.count) (hmax : q.count ≤ countLimit) :
    q.AskedBy q.commandLine := by
  have hflag : Arguments.scan? ⟨["--from", "--count"], ["--inclusive"]⟩
      ((if q.inclusive then ["--inclusive"] else []) ++ ["--", q.pattern]) =
        some ⟨[q.pattern], if q.inclusive then [("--inclusive", "")] else []⟩ := by
    cases q.inclusive
    · simp [Arguments.scan?]
    · simp [Arguments.scan?, show isOption "--inclusive" = true by decide,
        show splitOption "--inclusive" = ("--inclusive", none) by decide, Arguments.addOption]
  refine askedBy_of_scan hpos hmax ?_
  rw [Arguments.scan?_joined _ _ (by decide) (by decide) (by decide),
    Arguments.scan?_joined _ _ (by decide) (by decide) (by decide), hflag]
  rfl

end Query

/-- The lines of an output, each of which ends with a line feed. -/
def outputLines (output : String) : List String :=
  ((output.toList.splitOn '\n').dropLast).map String.ofList

theorem newline_notMem_padded {width n : Nat} : '\n' ∉ padded width n := by
  intro h
  have hdigit := isDigit_of_mem_padded h
  cases hdigit

theorem Instant.newline_notMem_written (i : Instant) : '\n' ∉ i.written := by
  unfold written Date.written TimeOfDay.clockWritten yearWritten
  split
  · simp [newline_notMem_padded]
  · split <;> simp [newline_notMem_padded]

theorem toList_foldl_text (is : List Instant) (text : String) :
    (is.foldl (fun text i => text ++ i.text ++ "\n") text).toList =
      text.toList ++ is.flatMap fun i => i.written ++ ['\n'] := by
  induction is generalizing text with
  | nil => simp
  | cons i is ih =>
    rw [List.foldl_cons, ih, Instant.text, List.flatMap_cons]
    simp only [String.toList_append, String.toList_ofList, List.append_assoc]
    rfl

theorem toList_instantLines (found : Array Instant) :
    (instantLines found).toList = found.toList.flatMap fun i => i.written ++ ['\n'] := by
  rw [instantLines, ← Array.foldl_toList, toList_foldl_text]
  rfl

/-- The lines of a list of instants are the instants' texts. -/
theorem outputLines_instantLines (found : Array Instant) :
    outputLines (instantLines found) = found.toList.map Instant.text := by
  rw [outputLines, toList_instantLines]
  induction found.toList with
  | nil => rfl
  | cons i is ih =>
    have hne : List.splitOn '\n' (is.flatMap fun i => i.written ++ ['\n']) ≠ [] :=
      List.splitOn_ne_nil _ _
    rw [List.flatMap_cons, List.append_assoc, List.singleton_append,
      List.splitOn_append_cons_self_of_not_mem i.newline_notMem_written,
      List.dropLast_cons_of_ne_nil hne, List.map_cons, ih]
    rfl

end Timetable
