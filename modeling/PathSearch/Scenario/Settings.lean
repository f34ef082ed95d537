import PathSearch.Scenario.Program
import PathSearch.Search.Config
import PathSearch.Search.Predicate
import PathSearch.Search.Strategy

/-! # Descriptions of searches

Settings are pairs of a name and a value, applied one after the other.
-/

namespace PathSearch

def Uninitialized.ofDatum : Datum → Reading Uninitialized
  | .text "zero" => .ok .zero
  | .text "symbolic" => .ok .symbolic
  | _ => Datum.malformed

namespace SolverConfig

/-- Applies a setting of the solver. -/
def set (c : SolverConfig) (d : Datum) : Reading SolverConfig := do
  let (name, value) ← d.pair
  match ← name.string with
  | "timeout_ms" => return { c with timeoutMs := ← value.nat }
  | "cache" => return { c with cacheResults := ← value.bool }
  | "max_cache_entries" => return { c with maxCacheEntries := ← value.nat }
  | _ => Datum.malformed

/-- Reads the settings of a solver. -/
def ofData (settings : List Datum) : Reading SolverConfig := settings.foldlM set {}

end SolverConfig

namespace Limits

/-- Sets a limit. -/
def set (l : Limits) (name : String) (value : Datum) : Reading Limits := do
  match name with
  | "max_found" => return { l with maxFound := ← value.nat }
  | "max_total_steps" => return { l with maxTotalSteps := ← value.nat }
  | "max_path_steps" => return { l with maxPathSteps := ← value.nat }
  | "timeout_ms" => return { l with timeoutMs := ← value.nat }
  | "loop_unroll_limit" => return { l with loopUnrollLimit := ← value.nat? }
  | "max_active" => return { l with maxActive := ← value.nat? }
  | _ => Datum.malformed

/-- Reads limits. -/
def ofData (settings : List Datum) : Reading Limits :=
  settings.foldlM (fun l d => do
    let (name, value) ← d.pair
    l.set (← name.string) value) {}

end Limits

namespace Config

/-- Applies a setting of a search; a limit may be set on its own. -/
def set (c : Config) (d : Datum) : Reading Config := do
  let (name, value) ← d.pair
  match ← name.string with
  | "limits" => return { c with limits := ← Limits.ofData (← value.items) }
  | "symbolic_address_cap" => return { c with addressCap := ← value.nat }
  | "uninitialized" => return { c with uninitialized := ← Uninitialized.ofDatum value }
  | "batch_size" => return { c with batchSize := ← value.nat }
  | "seed" => return { c with seed := ← value.word }
  | "solver" => return { c with solver := ← SolverConfig.ofData (← value.items) }
  | name => return { c with limits := ← c.limits.set name value }

/-- Reads the settings that others are applied to. -/
def presetOf : Datum → Reading Config
  | .text "default" => .ok {}
  | .text "quick" => .ok quick
  | .text "thorough" => .ok thorough
  | .list [.text "bounded", n] => bounded <$> n.nat
  | _ => Datum.malformed

/-- Reads a preset and what is changed in it; without a preset the search is a quick one. -/
def ofData : List Datum → Reading Config
  | [] => .ok quick
  | preset :: settings => do settings.foldlM set (← presetOf preset)

end Config

/-- Reads a strategy, with its memory at the start. -/
def Strategy.ofDatum (c : Config) : Datum → Reading (Strategy Random × Random)
  | .text "dfs" => .ok (depthFirst, default)
  | .text "bfs" => .ok (breadthFirst, default)
  | .text "config" => .ok (random, .ofSeed c.seed)
  | .list [.text "random", seed] => return (random, .ofSeed (← seed.word))
  | _ => Datum.malformed

/-- Reads what is looked for, or avoided, in a program. -/
def Predicate.ofDatum (p : Program) : Datum → Reading Predicate
  | .text "never" => .ok .never
  | .list (.text "addrs" :: list) => ofAddresses <$> list.mapM p.addressOf
  | .list [.text "steps_ge", n] => stepsAtLeast <$> n.nat
  | .list [.text "reg_const", r, value] => return registerIs (← Register.ofDatum r) (← value.word)
  | .list [.text "mnemonic", name] => atMnemonic <$> name.string
  | d => return ofAddresses [← p.addressOf d]

end PathSearch
