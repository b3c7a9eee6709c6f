import Di.DslRead
import Di.DslSoundness

/-!
# Specifications that compile

What holds of every specification that `New` accepts.  The trees that the parser
and the import resolution produce contain no values, so the discipline of the
evaluator applies from the start: the declared labels are consistent, no
container carries a label twice, and the executed placement statements are
enforced.
-/

namespace Di
namespace Lang

open Procedure GoScanner

theorem sources_iff (elems : List Ast) :
    Ast.sources elems = true ↔ ∀ elem ∈ elems, elem.source = true := by
  induction elems with
  | nil => simp [Ast.sources]
  | cons elem rest ih => simp [Ast.sources, ih]

theorem source_of_read {u : Unicode} {tree : Ast} (hread : tree.Read u) : tree.source = true := by
  induction hread with
  | @scalar value hvalue => cases value <;> first | rfl | exact hvalue.elim
  | sexp _ ih => exact (sources_iff _).mpr ih

theorem source_of_statement {u : Unicode} {tree : Ast} (hstatement : Statement u tree) :
    tree.source = true := by
  induction hstatement with
  | tree hread _ => exact source_of_read hread
  | imported _ _ ih => exact (sources_iff _).mpr ih

theorem sources_compile {u : Unicode} {files : Files} {fuel : ℕ} {spec : Spec}
    {program : List Ast} (hok : compile u files fuel spec = .ok program) :
    Ast.sources program = true :=
  (sources_iff program).mpr fun tree hmem => source_of_statement (statements_compile hok tree hmem)

/-! ## Declarations of a compiled specification -/

section Declarations

variable {rt : Runtime} {files : Files} {fuel : ℕ} {spec : Spec} {dsl : Dsl}

theorem consistent_of_new (hnew : new rt files fuel spec = .ok dsl) : dsl.store.Consistent := by
  rcases new_eq_ok.mp hnew with ⟨program, values, hprogram, _, rfl⟩
  exact (evalProgram_sound rt fuel (sources_compile hprogram)).1

theorem labels_nodup_of_new (hnew : new rt files fuel spec = .ok dsl) :
    ∀ container ∈ dsl.queryContainers, container.labels.Nodup := by
  intro container hmem
  rcases List.mem_map.mp hmem with ⟨c, hc, rfl⟩
  rcases List.mem_iff_getElem?.mp hc with ⟨i, hi⟩
  simpa [Store.labelsOf, hi] using (consistent_of_new hnew).nodup (.container i)

end Declarations

/-! ## Every state of an evaluation -/

def Event.written : Event → Option Store
  | .wrote store => some store
  | _ => none

/-- The stores an evaluation goes through.  `labelImpl` evaluates nothing while it marks the
members of a label, so all of its writes are one. -/
def reachedStores (rt : Runtime) (fuel : ℕ) (program : List Ast) : List Store :=
  let ran := evalProgram rt fuel program
  Env.initial.store :: (ran.trace.filterMap Event.written ++ [ran.final.store])

theorem consistent_of_reached {rt : Runtime} {fuel : ℕ} {program : List Ast}
    (hprogram : Ast.sources program = true) :
    ∀ store ∈ reachedStores rt fuel program, store.Consistent := by
  intro store hmem
  have hsound := evalProgram_sound rt fuel hprogram
  rcases List.mem_cons.mp hmem with rfl | hmem
  · exact Store.consistent_empty
  · rcases List.mem_append.mp hmem with hwritten | hfinal
    · rcases List.mem_filterMap.mp hwritten with ⟨event, hevent, hstore⟩
      cases event with
      | wrote written =>
          injection hstore with hstore
          exact hstore ▸ hsound.2 _ hevent
      | _ => cases hstore
    · rw [List.mem_singleton.mp hfinal]
      exact hsound.1

def plainRuntime : Runtime := ⟨fun _ _ format _ => format, fun _ => .asStored _, .ascii⟩

def noFiles : Files := fun _ => none

def nestedLabels : String :=
  "(label \"web\" (docker \"nginx\"))\n(label \"all\" \"web\" (docker \"redis\"))\n" ++
    "(connect 80 \"public\" \"web\")\n(connect (list 1 9) \"web\" \"all\")"

theorem nestedLabels_compiles :
    ∃ program, compile plainRuntime.unicode noFiles 10 { text := nestedLabels.toList } =
      .ok program :=
  Outcome.exists_ok (by decide +kernel)

section Reached

variable {rt : Runtime} {files : Files} {fuel : ℕ} {spec : Spec} {program : List Ast}

/-- In every state of the evaluation of a program: no label is called `public`,
the members of a label are the objects that carry it, and an object carries only
defined labels, each once. -/
theorem labels_match_atoms (hprogram : compile rt.unicode files fuel spec = .ok program)
    (steps : ℕ) : ∀ store ∈ reachedStores rt steps program,
      (∀ name, store.Defines name → name ≠ publicInternetLabel) ∧
      (∀ name l, store.labels.lookup name = some l →
        ∀ a, a ∈ l.elems ↔ store.Has a ∧ name ∈ store.labelsOf a) ∧
      ∀ a, (store.labelsOf a).Nodup ∧ ∀ name ∈ store.labelsOf a, store.Defines name := by
  intro store hmem
  have hconsistent := consistent_of_reached (sources_compile hprogram) store hmem
  refine ⟨?_, ?_, fun a => ⟨hconsistent.nodup a, hconsistent.defined a⟩⟩
  · intro name hdefined
    rcases Option.isSome_iff_exists.mp hdefined with ⟨l, hl⟩
    exact (hconsistent.named name l hl).2
  · intro name l hl a
    rw [hconsistent.members name l hl a]
    constructor
    · intro hname
      exact ⟨store.has_of_mem_labelsOf hname, hname⟩
    · exact And.right

theorem labels_match_nestedLabels :
    ∃ program, compile plainRuntime.unicode noFiles 10 { text := nestedLabels.toList } =
      .ok program ∧
      ∀ store ∈ reachedStores plainRuntime 10 program, ∀ name l,
        store.labels.lookup name = some l →
          ∀ a, a ∈ l.elems ↔ store.Has a ∧ name ∈ store.labelsOf a := by
  rcases nestedLabels_compiles with ⟨program, hprogram⟩
  exact ⟨program, hprogram, fun store hmem =>
    (labels_match_atoms hprogram 10 store hmem).2.1⟩

/-- In every state of the evaluation of a program, every connection is one that
the network can implement. -/
theorem connections_implementable (hprogram : compile rt.unicode files fuel spec = .ok program)
    (steps : ℕ) : ∀ store ∈ reachedStores rt steps program,
      ∀ c ∈ store.connections.elems,
        (0 ≤ c.minPort ∧ c.minPort ≤ c.maxPort ∧ c.maxPort ≤ 65535) ∧
        (c.fromLabel = publicInternetLabel ∨ store.Defines c.fromLabel) ∧
        (c.toLabel = publicInternetLabel ∨ store.Defines c.toLabel) ∧
        ¬(c.fromLabel = publicInternetLabel ∧ c.toLabel = publicInternetLabel) ∧
        (c.fromLabel = publicInternetLabel ∨ c.toLabel = publicInternetLabel →
          c.minPort = c.maxPort) := by
  intro store hmem c hc
  have hvalid :=
    (consistent_of_reached (sources_compile hprogram) store hmem).connections c hc
  exact ⟨hvalid.ports, hvalid.source, hvalid.target, hvalid.oneEnd, hvalid.onePort⟩

theorem connections_implementable_nestedLabels :
    ∃ program, compile plainRuntime.unicode noFiles 10 { text := nestedLabels.toList } =
      .ok program ∧
      ∀ store ∈ reachedStores plainRuntime 10 program, ∀ c ∈ store.connections.elems,
        0 ≤ c.minPort ∧ c.minPort ≤ c.maxPort ∧ c.maxPort ≤ 65535 := by
  rcases nestedLabels_compiles with ⟨program, hprogram⟩
  exact ⟨program, hprogram, fun store hmem c hc =>
    (connections_implementable hprogram 10 store hmem c hc).1⟩

end Reached

end Lang
end Di
