import Di.MinionEngine
import Di.DslCompiled

/-!
# Applying a compiled specification

The minion compiles the text it was sent and updates its tables.  For every
specification that compiles, the tables of a master show exactly what the
specification declares, and a second update of the connections changes nothing.
A second update of the containers changes nothing, whatever the order of the
rows, exactly if no container absorbs the row of a later one that has another
environment.
-/

namespace Di
namespace Minion

open Db Lang

/-- The specification is compiled without an import path; nothing is returned if the compilation
crashes or does not end. -/
def updatePolicy (rt : Runtime) (files : Files) (fuel : ℕ) (orders : Orders) (role : Role)
    (spec : String) (view : Database) : Option Database :=
  match new rt files fuel { text := spec.toList } with
  | .ok compiled =>
      (if role = .master then updateContainers orders compiled view
        else some view).bind (updateConnections orders compiled)
  | .error _ => some view
  | .panic => none
  | .timeout => none

theorem updatePolicy_eq (rt : Runtime) (files : Files) (fuel : ℕ) (orders : Orders)
    (role : Role) (spec : String) (view : Database) :
    updatePolicy rt files fuel orders role spec view =
      match new rt files fuel { text := spec.toList } with
      | .ok compiled =>
          (if role = .master then updateContainers orders compiled view
            else some view).bind (updateConnections orders compiled)
      | .error _ => some view
      | .panic => none
      | .timeout => none := by
  delta updatePolicy
  rfl

/-- Only a master keeps the containers of the specification. -/
def ShowsPolicy (dsl : Dsl) (role : Role) (view : Database) : Prop :=
  ((view.tables .connection).rows.map connectionView).Perm dsl.queryConnections ∧
    (role = .master → ((view.tables .container).rows.map containerView).Perm
      (dsl.queryContainers.map containerTarget))

theorem updatePolicy_accepted {rt : Runtime} {files : Files} {fuel : ℕ} {spec : String}
    {dsl : Dsl} (hnew : new rt files fuel { text := spec.toList } = .ok dsl)
    (orders : Orders) (role : Role) (view : Database) :
    ∃ after, updatePolicy rt files fuel orders role spec view = some after ∧
      ShowsPolicy dsl role after ∧ after.tables .minion = view.tables .minion := by
  by_cases hmaster : role = .master
  · rcases updateContainers_spec orders dsl view with ⟨mid, hmid, hcontainers, hkept⟩
    rcases updateConnections_spec orders dsl mid with ⟨after, hafter, hconnections, hsame⟩
    refine ⟨after, ?_, ⟨hconnections, fun _ => ?_⟩, ?_⟩
    · rw [updatePolicy_eq, hnew]
      simp only [hmaster, if_true, hmid, Option.bind_some, hafter]
    · rw [hsame .container (by decide)]
      exact hcontainers
    · rw [hsame .minion (by decide), hkept .minion (by decide)]
  · rcases updateConnections_spec orders dsl view with ⟨after, hafter, hconnections, hsame⟩
    refine ⟨after, ?_, ⟨hconnections, fun h => absurd h hmaster⟩, hsame .minion (by decide)⟩
    rw [updatePolicy_eq, hnew]
    simp only [hmaster, if_false, Option.bind_some, hafter]

/-- After a policy update on a master, the container table shows the containers
of the specification and the connection table its connections, each once; a
repeated update of the connections changes nothing. -/
theorem updatePolicy_shows_spec {rt : Runtime} {files : Files} {fuel : ℕ} {spec : String}
    {dsl : Dsl} (hnew : new rt files fuel { text := spec.toList } = .ok dsl)
    (orders : Orders) (view : Database) :
    ∃ after, updatePolicy rt files fuel orders .master spec view = some after ∧
      ((after.tables .container).rows.map containerView).Perm
        (dsl.queryContainers.map containerTarget) ∧
      ((after.tables .connection).rows.map connectionView).Perm dsl.queryConnections ∧
      dsl.queryConnections.Nodup ∧
      ∀ again, updateConnections again dsl after = some after := by
  rcases updatePolicy_accepted hnew orders .master view with
    ⟨after, hafter, ⟨hconnections, hcontainers⟩, _⟩
  exact ⟨after, hafter, hcontainers rfl, hconnections, dsl.store.connections.nodup,
    updateConnections_again hconnections⟩

def twoRedis : String :=
  "(define main (docker \"redis\"))\n(setEnv main \"MODE\" \"main\")\n(docker \"redis\")"

theorem twoRedis_compiles :
    ∃ dsl, new plainRuntime noFiles 10 { text := twoRedis.toList } = .ok dsl :=
  Outcome.exists_ok (by decide +kernel)

theorem updatePolicy_shows_twoRedis :
    ∃ dsl after, new plainRuntime noFiles 10 { text := twoRedis.toList } = .ok dsl ∧
      updatePolicy plainRuntime noFiles 10 Orders.asStored .master twoRedis Database.new =
        some after ∧
      ((after.tables .container).rows.map containerView).Perm
        (dsl.queryContainers.map containerTarget) := by
  rcases twoRedis_compiles with ⟨dsl, hnew⟩
  rcases updatePolicy_shows_spec hnew Orders.asStored Database.new with
    ⟨after, hafter, hcontainers, _⟩
  exact ⟨dsl, after, hnew, hafter, hcontainers⟩

/-- Applying the same specification again never changes the container table, for
any tables and any orders, exactly if the containers are separated. -/
theorem updateContainers_idempotent_iff {rt : Runtime} {files : Files} {fuel : ℕ}
    {spec : Spec} {dsl : Dsl} (hnew : new rt files fuel spec = .ok dsl) :
    (∀ (view after : Database) (orders again : Orders),
      updateContainers orders dsl view = some after →
        updateContainers again dsl after = some after) ↔
      Separated dsl.queryContainers :=
  updateContainers_repeat_iff (labels_nodup_of_new hnew)

theorem updateContainers_idempotent_iff_twoRedis :
    ∃ dsl, new plainRuntime noFiles 10 { text := twoRedis.toList } = .ok dsl ∧
      ((∀ (view after : Database) (orders again : Orders),
        updateContainers orders dsl view = some after →
          updateContainers again dsl after = some after) ↔
        Separated dsl.queryContainers) := by
  rcases twoRedis_compiles with ⟨dsl, hnew⟩
  exact ⟨dsl, hnew, updateContainers_idempotent_iff hnew⟩

/-- The identifiers and environments of the rows after a first application to empty tables and
after a second one that reads the rows in the opposite order. -/
def twice (dsl : Dsl) : Option (List (ℕ × Option String) × List (ℕ × Option String)) := do
  let rows := fun db : Database =>
    (db.tables .container).rows.map fun c => (c.ID, c.env.lookup "MODE")
  let first ← updateContainers Orders.asStored dsl Database.new
  let second ← updateContainers { Orders.asStored with container := .backwards _ } dsl first
  pure (rows first, rows second)

/-- The first container takes the row of the second one, which is then replaced
by a new row. -/
theorem twoRedis_replaced :
    (new plainRuntime noFiles 10 { text := twoRedis.toList }).value?.bind twice =
      some ([(1, some "main"), (2, none)], [(2, some "main"), (3, none)]) := by
  decide +kernel

end Minion
end Di
