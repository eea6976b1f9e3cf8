import Complementarity.Benchmark.Family
import Complementarity.Text.Numeral

/-!
# Command line arguments

Every option is given at most once, as `--name value` or as `--name=value`; a switch has no value.
A value of its own must not start with a dash, since that is how options start.  Nothing but options
is accepted, except that a closing `--` does no harm.
-/

namespace Complementarity.Benchmark

/-- What is asked for on the command line. -/
structure Arguments where
  family : FamilySelection := .all
  dim : Nat := 6
  count : Nat := 100
  seed : Nat := 12345
  scalar : ScalarSelection := .both
  maxIter : Option Nat := none
  verbose : Bool := false
  deriving DecidableEq, Repr

/-- The names that an option can have. -/
inductive OptionName where
  | family
  | dim
  | count
  | seed
  | scalar
  | maxIter
  | verbose
  deriving DecidableEq, Repr

namespace OptionName

/-- How a name is written. -/
def text : OptionName → String
  | family => "--family"
  | dim => "--dim"
  | count => "--count"
  | seed => "--seed"
  | scalar => "--scalar"
  | maxIter => "--max-iter"
  | verbose => "--verbose"

/-- The name that is written in a certain way. -/
def ofText? (text : String) : Option OptionName :=
  [family, dim, count, seed, scalar, maxIter, verbose].find? fun name => name.text = text

/-- Whether an option is a switch. -/
def isSwitch (name : OptionName) : Bool := name = verbose

end OptionName

/-- An option as it is given: its name, and its value unless it is a switch. -/
structure GivenOption where
  name : OptionName
  value : String := ""

namespace GivenOption

/-- An argument cut at its first equals sign; the second part is missing without one. -/
def cut (argument : String) : String × Option String :=
  let chars := argument.toList
  let tail := chars.dropWhile (· ≠ '=')
  (String.ofList (chars.takeWhile (· ≠ '=')),
    if tail.isEmpty then none else some (String.ofList tail.tail))

/-- The option in the first argument, and the arguments after it. -/
def first? (argument : String) (rest : List String) : Option (GivenOption × List String) := do
  let (text, attached) := cut argument
  let name ← OptionName.ofText? text
  match name.isSwitch, attached, rest with
  | true, none, _ => some (⟨name, ""⟩, rest)
  | true, some _, _ => none
  | false, some value, _ => some (⟨name, value⟩, rest)
  | false, none, [] => none
  | false, none, value :: rest =>
    if value.toList.head? = some '-' then none else some (⟨name, value⟩, rest)

/-- Reading an option leaves fewer arguments. -/
theorem length_of_first? {argument : String} {rest : List String}
    {result : GivenOption × List String} (h : first? argument rest = some result) :
    result.2.length < (argument :: rest).length := by
  rw [List.length_cons, Nat.lt_succ_iff]
  simp only [first?, bind, Option.bind_eq_some_iff] at h
  obtain ⟨name, -, h⟩ := h
  split at h
  · cases h; exact Nat.le_refl _
  · cases h
  · cases h; exact Nat.le_refl _
  · cases h
  · split at h
    · cases h
    · cases h; exact Nat.le_succ _

/-- The options in a list of arguments. -/
def ofArguments? : List String → Option (List GivenOption)
  | [] => some []
  | argument :: rest =>
    if argument = "--" then if rest.isEmpty then some [] else none
    else
      match _h : first? argument rest with
      | none => none
      | some result => (ofArguments? result.2).map (result.1 :: ·)
  termination_by arguments => arguments.length
  decreasing_by exact length_of_first? _h

end GivenOption

namespace Arguments

/-- The arguments with one option set; none if the value is not one that the option can have. -/
def set? (a : Arguments) (given : GivenOption) : Option Arguments :=
  let number := Text.numeralValue? given.value.toList
  match given.name with
  | .family =>
    (FamilySelection.ofKeyword? given.value).map fun choice => { a with family := choice }
  | .dim => number.map fun n => { a with dim := n }
  | .count => number.map fun n => { a with count := n }
  | .seed => number.map fun n => { a with seed := n }
  | .scalar =>
    (ScalarSelection.ofKeyword? given.value).map fun choice => { a with scalar := choice }
  | .maxIter => number.map fun n => { a with maxIter := some n }
  | .verbose => some { a with verbose := true }

/-- What a list of arguments asks for; none if it is not understood. -/
def parse? (arguments : List String) : Option Arguments := do
  let options ← GivenOption.ofArguments? arguments
  if (options.map GivenOption.name).Nodup then options.foldlM set? {} else none

end Arguments

end Complementarity.Benchmark
