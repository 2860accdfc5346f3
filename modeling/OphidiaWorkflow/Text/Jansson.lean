import OphidiaWorkflow.Text.Survival
import OphidiaWorkflow.Text.Written

/-!
The library Jansson, by what its documentation says of `json_loads` without options and of `json_dumps` with
`JSON_INDENT(4)`. The parser and the printer of the modules before are one library of this kind.
-/
namespace OphidiaWorkflow.Json

/-- Values stand in each other at most `n` deep. -/
inductive Nested : Nat → Json → Prop
  | string {n : Nat} (s : List Char) : Nested (n + 1) (string s)
  | array {n : Nat} {l : List Json} (h : ∀ j ∈ l, Nested n j) : Nested (n + 1) (array l)
  | object {n : Nat} {ms : List (String × Json)} (h : ∀ m ∈ ms, Nested n m.2) : Nested (n + 1) (object ms)
  | other {n : Nat} : Nested (n + 1) other

theorem Nested.succ {n : Nat} {j : Json} (h : Nested n j) : Nested (n + 1) j := by
  induction h with
  | string s => exact .string s
  | array h ih => exact .array ih
  | object h ih => exact .object ih
  | other => exact .other

theorem Nested.mono {n m : Nat} {j : Json} (h : Nested n j) (hn : n ≤ m) : Nested m j := by
  induction hn with
  | refl => exact h
  | step hn ih => exact ih.succ

section Nested

variable {n : Nat} {k : String} {j : Json} {ms ms' : List (String × Json)} {kvs : List (String × Option (List Char))}

theorem nested_setMember (h : Nested (n + 1) (object ms)) (hj : Nested n j) :
    Nested (n + 1) (object (setMember ms k j)) := by
  cases h with
  | object h => exact .object (forall_mem_setMember h hj)

theorem nested_addAllToJson (h : Nested (n + 2) (object ms)) (hadd : addAllToJson ms kvs = some ms') :
    Nested (n + 2) (object ms') :=
  addAllToJson_induction (P := fun ms => Nested (n + 2) (object ms))
    (fun _ _ _ s _ _ h => nested_setMember h (.string s)) h hadd

end Nested

/-- `JSON_PARSER_MAX_DEPTH` -/
def parserMaxDepth : Nat := 2048

class Jansson where
  /-- `json_loads` -/
  loads : List Char → Option Json
  /-- `json_dumps` -/
  dumps : Json → List Char
  /-- Only UTF-8 without null characters is accepted. -/
  sound_of_loads {s : List Char} {j : Json} : loads s = some j → Sound j
  /-- Texts as the grammar has them are read. -/
  loads_written {t : List Char} {ms : List (String × Json)} : WrittenMembers t ms →
    Nested parserMaxDepth (object ms) → loads ('\x7b' :: t) = some (object ms)
  /-- What is printed is read again. -/
  loads_dumps {j : Json} : Compound j → Sound j → Nested parserMaxDepth j → loads (dumps j) = some j
  /-- Of the characters of a text only quotes, backslashes and those below the space are escaped. -/
  spells_dumps {j : Json} : Compound j → Spells (dumps j) (literals j)

export Jansson (loads dumps)

instance : Jansson where
  loads := parse
  dumps := print
  sound_of_loads := sound_of_parse
  loads_written h _ := parse_of_written h
  loads_dumps hj h _ := parse_print h hj
  spells_dumps _ := spells_dump 0 _

/-- A printed value is given back by the stripper of the comments as it is exactly if its texts are undisturbed. -/
theorem skipComments_dumps_iff [Jansson] {j : Json} (h : Compound j) :
    skipComments (dumps j) = some (dumps j) ↔ Undisturbed false (literals j) :=
  (Jansson.spells_dumps h).skipComments_iff

end OphidiaWorkflow.Json
