import PathSearch.Hook
import PathSearch.Scenario.Action

/-! # Descriptions of hooks -/

namespace PathSearch

/-- A summary that always fails. -/
def Summary.failing (text : String) : Summary := .custom fun _ => throw (.hook text)

/-- A summary that goes on with one fork for every list of actions. -/
def Summary.ofActions (choices : List (List Action)) : Summary :=
  .custom fun s => Action.alternatives s choices

/-- Reads a summary of one's own: the text of its failure, or lists of actions. -/
def Summary.ofBody : Datum → Reading Summary
  | .text failure => .ok (.failing failure)
  | d => do return .ofActions (← (← d.items).mapM Action.listOfDatum)

/-- Reads a summary of a kind. What a kind does not need is passed over. -/
def Summary.ofDatum (kind : String) (args : List Datum) : Reading Summary :=
  match kind, args with
  | "return_value", v :: _ => .returnValue <$> v.word
  | "return_symbolic", _ => .ok .returnSymbolic
  | "abort", _ => .ok .abort
  | "skip", _ => .ok .skip
  | "read_stream", fd :: _ => .readStream <$> fd.nat
  | "custom", body :: _ => Summary.ofBody body
  | _, _ => Datum.malformed

/-- Reads a hook: its kind, its name, its address and what the kind needs. -/
def Hook.ofDatum (p : Program) (d : Datum) : Reading Hook := do
  match ← d.command with
  | (kind, name :: address :: args) =>
      return ⟨← name.string, ← p.addressOf address, ← Summary.ofDatum kind args⟩
  | _ => Datum.malformed

/-- Reads hooks; of two at one address the later counts. -/
def HookTable.ofData (p : Program) (hooks : List Datum) : Reading HookTable :=
  hooks.foldlM (fun t h => return t.insert (← Hook.ofDatum p h)) {}

end PathSearch
