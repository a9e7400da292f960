import ShaderBlocks.Proofs.Outcome
import ShaderBlocks.Proofs.Relinking

/-!
# The outlets of a material

A material has one set of outlets for both of its fragments. It ought to be their union by name:
a name that is declared twice, in one fragment or in two, gives one outlet if the declarations say
the same and is refused if they do not.

The merge starts from what the vertex fragment declares, just as it is, and looks at nothing but
the declarations of the other fragment. Each of these is held against the first declaration of its
name. So the outlets are the union whenever the vertex fragment declares no name twice, and also
when the material is refused. Otherwise they are not: the vertex fragment may declare a name as a
parameter and again as a uniform, and both stay.
-/

namespace ShaderBlocks

/-- Two descriptions are of one outlet. -/
structure OutletSpec.Matches (spec other : OutletSpec) : Prop where
  /-- They have one name. -/
  name : spec.name = other.name
  /-- They have one type. -/
  type : spec.type = other.type
  /-- Both go one way. -/
  direction : spec.direction = other.direction
  /-- Both are parameters or both are uniforms. -/
  category : spec.category = other.category

namespace OutletSpec

/-- Descriptions of one name are of one outlet if they agree. -/
theorem matches_iff {spec other : OutletSpec} :
    spec.Matches other ↔ spec.name = other.name ∧ spec.agrees other = true := by
  simp only [agrees, decide_eq_true_eq]
  constructor
  · exact fun same => ⟨same.name, same.type, same.direction, same.category⟩
  · rintro ⟨name, type, direction, category⟩
    exact ⟨name, type, direction, category⟩

/-- Descriptions that are of the same outlet as a third one are of one outlet. -/
theorem Matches.of_common {held first second : OutletSpec} (toFirst : held.Matches first)
    (toSecond : held.Matches second) : first.Matches second where
  name := toFirst.name.symm.trans toSecond.name
  type := toFirst.type.symm.trans toSecond.type
  direction := toFirst.direction.symm.trans toSecond.direction
  category := toFirst.category.symm.trans toSecond.category

end OutletSpec

namespace BlockKind

/-- What is declared, in order: the parameters and uniforms of the vertex fragment, then those of
the other. -/
def declared (vertex fragment : Fragment) : List OutletSpec :=
  vertex.parameters.map .ofParameter ++ vertex.uniforms.map .ofUniform ++
    (fragment.parameters.map .ofParameter ++ fragment.uniforms.map .ofUniform)

/-- The first declaration of the name says something else. -/
def contradictsFirst (all : List OutletSpec) (spec : OutletSpec) : Bool :=
  (all.find? (·.name == spec.name)).any (!·.agrees spec)

/-- A declaration that contradicts the first one of its name is not of the same outlet. -/
theorem contradictsFirst_eq_true {all : List OutletSpec} {spec : OutletSpec} :
    contradictsFirst all spec = true ↔
      ∃ first, all.find? (·.name == spec.name) = some first ∧ ¬first.Matches spec := by
  rw [contradictsFirst, Option.any_eq_true]
  constructor
  · rintro ⟨first, found, disagrees⟩
    refine ⟨first, found, fun same => ?_⟩
    rw [(OutletSpec.matches_iff.mp same).2] at disagrees
    contradiction
  · rintro ⟨first, found, other⟩
    refine ⟨first, found, ?_⟩
    have named : first.name = spec.name := by simpa using List.find?_some found
    rw [Bool.not_eq_true', ← Bool.not_eq_true]
    exact fun agrees => other (OutletSpec.matches_iff.mpr ⟨named, agrees⟩)

/-- A declaration whose name was declared before is never the first of its name. -/
theorem find?_skip {merged rest : List OutletSpec} {spec held : OutletSpec}
    (found : merged.find? (·.name == spec.name) = some held) (name : String) :
    (merged ++ spec :: rest).find? (·.name == name) = (merged ++ rest).find? (·.name == name) := by
  rw [List.find?_append, List.find?_append]
  by_cases same : spec.name = name
  · rw [← same, found, Option.some_or, Option.some_or]
  · rw [List.find?_cons_of_neg (by simpa using same)]

/-- Merging fails at the first declaration that contradicts the first one of its name. -/
theorem mergeOutlets_eq_error {merged specs : List OutletSpec} {error : GraphError} :
    mergeOutlets merged specs = .error error ↔
      ∃ spec, specs.find? (contradictsFirst (merged ++ specs)) = some spec ∧
        error = .outletConflict spec.name := by
  induction specs generalizing merged with
  | nil => simp [mergeOutlets]
  | cons spec rest ih =>
    rw [mergeOutlets]
    cases found : merged.find? (·.name == spec.name) with
    | none =>
      have first : (merged ++ spec :: rest).find? (·.name == spec.name) = some spec := by
        rw [List.find?_append, found, Option.none_or, List.find?_cons_of_pos (by simp)]
      have consistent : ¬contradictsFirst (merged ++ spec :: rest) spec = true := by
        rw [contradictsFirst, first]
        simp [OutletSpec.agrees]
      rw [List.find?_cons_of_neg consistent]
      simpa using @ih (merged ++ [spec])
    | some held =>
      have first : (merged ++ spec :: rest).find? (·.name == spec.name) = some held := by
        rw [List.find?_append, found, Option.some_or]
      have verdict : contradictsFirst (merged ++ spec :: rest) spec = !held.agrees spec := by
        rw [contradictsFirst, first, Option.any_some]
      by_cases agrees : held.agrees spec = true
      · have unchanged : contradictsFirst (merged ++ spec :: rest) =
            contradictsFirst (merged ++ rest) := by
          funext other
          rw [contradictsFirst, contradictsFirst, find?_skip found]
        rw [List.find?_cons_of_neg (by simp [verdict, agrees]), unchanged]
        simpa [agrees] using @ih merged
      · rw [List.find?_cons_of_pos (by simpa [verdict] using agrees)]
        simp [agrees, eq_comm]

/-- A material is refused at the first declaration of its fragment phase that contradicts the first
declaration of its name in either phase. -/
theorem outlets_material_eq_error {vertex fragment : Fragment} {error : GraphError} :
    (material vertex fragment).outlets = .error error ↔
      ∃ spec, fragment.outlets.find? (contradictsFirst (declared vertex fragment)) = some spec ∧
        error = .outletConflict spec.name :=
  mergeOutlets_eq_error

/-- To remove one more name is to remove it from what is left. -/
theorem removeAll_concat (names known : List String) (name : String) :
    names.removeAll (known ++ [name]) = (names.removeAll known).filter (!· == name) := by
  rw [List.removeAll, List.removeAll, List.filter_filter]
  refine List.filter_congr fun other _ => ?_
  rw [List.elem_eq_contains, List.elem_eq_contains, List.contains_append, List.contains_cons,
    List.contains_nil, Bool.or_false, Bool.not_or, Bool.and_comm]

/-- Merging adds the names that are not there yet, each once and in order. -/
theorem names_of_mergeOutlets {merged specs all : List OutletSpec}
    (done : mergeOutlets merged specs = .ok all) :
    all.map (·.name) = merged.map (·.name) ++
      ((specs.map (·.name)).removeAll (merged.map (·.name))).eraseDups := by
  induction specs generalizing merged with
  | nil =>
    obtain rfl := Except.ok.inj done
    simp [List.removeAll]
  | cons spec rest ih =>
    rw [mergeOutlets] at done
    rw [List.map_cons]
    cases found : merged.find? (·.name == spec.name) with
    | none =>
      rw [found] at done
      have absent : spec.name ∉ merged.map (·.name) := by
        rintro known
        obtain ⟨held, member, same⟩ := List.mem_map.mp known
        exact absurd (beq_iff_eq.mpr same) (List.find?_eq_none.mp found held member)
      rw [ih done, List.map_append, List.map_cons, List.map_nil, List.append_assoc,
        List.cons_removeAll, if_pos (by simpa using absent), List.eraseDups_cons,
        List.singleton_append, removeAll_concat]
    | some held =>
      rw [found] at done
      have known : spec.name ∈ merged.map (·.name) :=
        List.mem_map.mpr ⟨held, List.mem_of_find?_eq_some found, by
          simpa using List.find?_some found⟩
      dsimp only at done
      split at done
      · rw [ih done, List.cons_removeAll, if_neg (by simpa using known)]
      · contradiction

/-- What is there at the start stays in front. -/
theorem isPrefix_of_mergeOutlets {merged specs all : List OutletSpec}
    (done : mergeOutlets merged specs = .ok all) : merged <+: all := by
  induction specs generalizing merged with
  | nil => exact Except.ok.inj done ▸ List.prefix_rfl
  | cons spec rest ih =>
    rw [mergeOutlets] at done
    split at done
    · split at done
      · exact ih done
      · contradiction
    · exact (List.prefix_append _ _).trans (ih done)

/-- Every declaration of either side finds an outlet that matches it. -/
theorem matches_of_mergeOutlets {merged specs all : List OutletSpec}
    (done : mergeOutlets merged specs = .ok all) {spec : OutletSpec}
    (member : spec ∈ merged ++ specs) : ∃ held ∈ all, held.Matches spec := by
  rcases List.mem_append.mp member with atStart | added
  · exact ⟨spec, (isPrefix_of_mergeOutlets done).subset atStart, rfl, rfl, rfl, rfl⟩
  · obtain ⟨held, found, agrees⟩ := agrees_of_mergeOutlets done added
    have named : held.name = spec.name := by simpa using List.find?_some found
    exact ⟨held, List.mem_of_find?_eq_some found, OutletSpec.matches_iff.mpr ⟨named, agrees⟩⟩

end BlockKind

/-- Names that are distinct have no repetitions to drop. -/
theorem eraseDups_of_nodup {names : List String} (distinct : names.Nodup) :
    names.eraseDups = names := by
  induction names with
  | nil => simp
  | cons name rest ih =>
    obtain ⟨absent, distinct⟩ := List.nodup_cons.mp distinct
    have others : rest.filter (!· == name) = rest := by
      refine List.filter_eq_self.mpr fun other member => ?_
      rw [Bool.not_eq_true', beq_eq_false_iff_ne]
      rintro rfl
      exact absent member
    rw [List.eraseDups_cons, others, ih distinct]

namespace Block

/-- The outlets of a material are the union by name of what its fragments declare. -/
structure UnionByName (vertex fragment : Fragment)
    (outcome : EStateM.Result GraphError Supply Block) : Prop where
  /-- The material is refused if two declarations of one name differ in type, direction or
  category, and only then. -/
  refused : (∃ name rest, outcome = .error (.outletConflict name) rest) ↔
    ∃ first ∈ BlockKind.declared vertex fragment, ∃ second ∈ BlockKind.declared vertex fragment,
      first.name = second.name ∧ ¬first.Matches second
  /-- No two outlets have one name. -/
  distinct : ∀ block rest, outcome = .ok block rest → (block.outlets.map (·.name)).Nodup
  /-- The outlets stand in the order in which their names are first declared. -/
  ordered : ∀ block rest, outcome = .ok block rest →
    block.outlets.map (·.name) = ((BlockKind.declared vertex fragment).map (·.name)).eraseDups
  /-- Whatever is declared has its outlet. -/
  represented : ∀ block rest, outcome = .ok block rest →
    ∀ spec ∈ BlockKind.declared vertex fragment,
      ∃ outlet ∈ block.outlets, outlet.toOutletSpec.Matches spec

/-- A material whose sources can be read is made of what was read. -/
theorem run_makeMaterial {name : Option String} {vertexSource fragmentSource : String}
    {vertex fragment : Fragment}
    (readsVertex : Fragment.read (some (name.getD defaultMaterialName)) vertexSource = .ok vertex)
    (readsFragment :
      Fragment.read (some (name.getD defaultMaterialName)) fragmentSource = .ok fragment)
    (supply : Supply) :
    (makeMaterial name vertexSource fragmentSource).run supply =
      (make (.material vertex fragment)).run supply := by
  rw [makeMaterial, readsVertex, readsFragment]
  rfl

/-- A material that is refused because of a contradiction is refused for good reason. -/
theorem unionByName_of_error {vertex fragment : Fragment} {spec : OutletSpec} {rest : Supply}
    (found : fragment.outlets.find?
      (BlockKind.contradictsFirst (BlockKind.declared vertex fragment)) = some spec) :
    UnionByName vertex fragment (.error (.outletConflict spec.name) rest) := by
  obtain ⟨first, isFirst, other⟩ := BlockKind.contradictsFirst_eq_true.mp (List.find?_some found)
  have declaredToo : spec ∈ BlockKind.declared vertex fragment :=
    List.mem_append_right _ (List.mem_of_find?_eq_some found)
  have named : first.name = spec.name := by simpa using List.find?_some isFirst
  refine ⟨⟨fun _ => ?_, fun _ => ⟨_, _, rfl⟩⟩, ?_, ?_, ?_⟩
  · exact ⟨first, List.mem_of_find?_eq_some isFirst, spec, declaredToo, named, other⟩
  all_goals
    intro block after made
    contradiction

section Made

variable {vertex fragment : Fragment} {block : Block}
  (described : (BlockKind.material vertex fragment).outlets =
    .ok (block.outlets.map Outlet.toOutletSpec))
include described

/-- The outlets have the names that the vertex fragment declares, repetitions included, and then
the others that the other fragment declares, each once. -/
theorem names_of_material :
    block.outlets.map (·.name) = vertex.outlets.map (·.name) ++
      ((fragment.outlets.map (·.name)).removeAll (vertex.outlets.map (·.name))).eraseDups := by
  rw [← BlockKind.names_of_mergeOutlets described, List.map_map]
  rfl

/-- Whatever is declared has its outlet. -/
theorem represented_of_material :
    ∀ spec ∈ BlockKind.declared vertex fragment,
      ∃ outlet ∈ block.outlets, outlet.toOutletSpec.Matches spec := by
  intro spec member
  obtain ⟨held, isHeld, same⟩ := BlockKind.matches_of_mergeOutlets described member
  obtain ⟨outlet, isOutlet, rfl⟩ := List.mem_map.mp isHeld
  exact ⟨outlet, isOutlet, same⟩

/-- If the vertex fragment declares no name twice, the outlets stand in the order of the names. -/
theorem ordered_of_material (once : (vertex.outlets.map (·.name)).Nodup) :
    block.outlets.map (·.name) =
      ((BlockKind.declared vertex fragment).map (·.name)).eraseDups := by
  have inOrder : BlockKind.declared vertex fragment = vertex.outlets ++ fragment.outlets := rfl
  rw [names_of_material described, inOrder, List.map_append, List.eraseDups_append,
    eraseDups_of_nodup once]

/-- A material that is not refused has the union for its outlets if, and only if, the vertex
fragment declares no name twice. -/
theorem unionByName_of_ok (rest : Supply) :
    UnionByName vertex fragment (.ok block rest) ↔ (vertex.outlets.map (·.name)).Nodup := by
  constructor
  · intro union
    have distinct := union.distinct block rest rfl
    rw [names_of_material described] at distinct
    exact distinct.of_append_left
  · intro once
    have ordered := ordered_of_material described once
    have distinct : (block.outlets.map (·.name)).Nodup := ordered ▸ nodup_eraseDups _
    have represented := represented_of_material described
    refine ⟨⟨?_, ?_⟩, ?_, ?_, ?_⟩
    · rintro ⟨name, after, failed⟩
      contradiction
    · -- Both declarations have an outlet, and it is the same one as names are distinct.
      rintro ⟨first, isFirst, second, isSecond, named, other⟩
      obtain ⟨outlet, member, matchesFirst⟩ := represented first isFirst
      obtain ⟨another, alsoMember, matchesSecond⟩ := represented second isSecond
      have sameName : outlet.name = another.name :=
        matchesFirst.name.trans (named.trans matchesSecond.name.symm)
      obtain rfl := List.inj_on_of_nodup_map distinct member alsoMember sameName
      exact absurd (matchesFirst.of_common matchesSecond) other
    all_goals
      intro made after same
      obtain ⟨rfl, -⟩ := EStateM.Result.ok.inj same
    · exact distinct
    · exact ordered
    · exact represented

end Made

/-- Of a material whose sources can be read: the outlets are the union by name of what is declared
exactly if the material is refused or the vertex source declares no name twice. It is refused
exactly if some declaration of the fragment source contradicts the first declaration of its name,
and the first such declaration gives the name that is reported. If there is none, it is made; then
whatever is declared has its outlet, and the names are those of the vertex source, repetitions
included, and then the new ones of the fragment source, each once. -/
theorem makeMaterial_unionByName_iff {name : Option String}
    {vertexSource fragmentSource : String} {vertex fragment : Fragment}
    (readsVertex : Fragment.read (some (name.getD defaultMaterialName)) vertexSource = .ok vertex)
    (readsFragment :
      Fragment.read (some (name.getD defaultMaterialName)) fragmentSource = .ok fragment)
    (supply : Supply) :
    let outcome := (makeMaterial name vertexSource fragmentSource).run supply
    let offender := fragment.outlets.find?
      (BlockKind.contradictsFirst (BlockKind.declared vertex fragment))
    (UnionByName vertex fragment outcome ↔
      (∃ conflict rest, outcome = .error (.outletConflict conflict) rest) ∨
        (vertex.outlets.map (·.name)).Nodup) ∧
      (∀ conflict, (∃ rest, outcome = .error (.outletConflict conflict) rest) ↔
        ∃ spec, offender = some spec ∧ spec.name = conflict) ∧
      (offender = none → ∃ block rest, outcome = .ok block rest ∧
        block.outlets.map (·.name) = vertex.outlets.map (·.name) ++
          ((fragment.outlets.map (·.name)).removeAll
            (vertex.outlets.map (·.name))).eraseDups ∧
        ∀ spec ∈ BlockKind.declared vertex fragment,
          ∃ outlet ∈ block.outlets, outlet.toOutletSpec.Matches spec) := by
  intro outcome offender
  have ran : outcome = (make (.material vertex fragment)).run supply :=
    run_makeMaterial readsVertex readsFragment supply
  rw [run_make] at ran
  cases made : (BlockKind.material vertex fragment).outlets with
  | error error =>
    obtain ⟨spec, found, rfl⟩ := BlockKind.outlets_material_eq_error.mp made
    have first : offender = some spec := found
    rw [made] at ran
    dsimp only at ran
    rw [ran, first]
    refine ⟨?_, ?_, ?_⟩
    · exact iff_of_true (unionByName_of_error found) (.inl ⟨_, _, rfl⟩)
    · intro conflict
      simp
    · intro absent
      contradiction
  | ok specs =>
    have consistent : offender = none := by
      cases first : offender with
      | none => rfl
      | some spec =>
        have failed := BlockKind.outlets_material_eq_error.mpr ⟨spec, first, rfl⟩
        rw [made] at failed
        contradiction
    rw [made] at ran
    dsimp only at ran
    rw [← Outlet.map_toOutletSpec_seed supply.next 0 specs] at made
    rw [ran, consistent]
    refine ⟨?_, ?_, ?_⟩
    · rw [unionByName_of_ok made]
      simp
    · intro conflict
      simp
    · intro absent
      exact ⟨_, _, rfl, names_of_material made, represented_of_material made⟩

/-- The fragment source declares a name twice, and another that the vertex source declares too:
each of them has one outlet. -/
theorem makeMaterial_unionByName_iff_sample :
    ∃ vertex fragment block rest,
      Fragment.read (some "m") "uniform float a;\nvoid main(in float b) { }" = .ok vertex ∧
      Fragment.read (some "m") "void main(in float c, in float b, in float c) { }" = .ok fragment ∧
      (makeMaterial (some "m") "uniform float a;\nvoid main(in float b) { }"
        "void main(in float c, in float b, in float c) { }").run .start = .ok block rest ∧
      block.outlets.map (·.name) = ["b", "a", "c"] ∧
      UnionByName vertex fragment (.ok block rest) := by
  obtain ⟨vertex, readsVertex, once⟩ : ∃ vertex,
      Fragment.read (some "m") "uniform float a;\nvoid main(in float b) { }" = .ok vertex ∧
        (vertex.outlets.map (·.name)).Nodup := ⟨_, rfl, by decide⟩
  obtain ⟨fragment, readsFragment⟩ : ∃ fragment,
      Fragment.read (some "m") "void main(in float c, in float b, in float c) { }" =
        .ok fragment := ⟨_, rfl⟩
  obtain ⟨block, rest, made, names⟩ : ∃ block rest,
      (makeMaterial (some "m") "uniform float a;\nvoid main(in float b) { }"
        "void main(in float c, in float b, in float c) { }").run .start = .ok block rest ∧
        block.outlets.map (·.name) = ["b", "a", "c"] := ⟨_, _, rfl, rfl⟩
  have union :=
    (@makeMaterial_unionByName_iff (some "m") _ _ _ _ readsVertex readsFragment .start).1.mpr
      (.inr once)
  rw [made] at union
  exact ⟨vertex, fragment, block, rest, readsVertex, readsFragment, made, names, union⟩

/-- Declarations that contradict each other are refused in the fragment source and kept, both of
them, in the vertex source. -/
theorem vertex_contradiction_kept :
    ∃ twice plain block rest,
      Fragment.read (some "material") "uniform vec2 a;\nvoid main(in float a) { }" = .ok twice ∧
      Fragment.read (some "material") "void main() { }" = .ok plain ∧
      (makeMaterial none "void main() { }" "uniform vec2 a;\nvoid main(in float a) { }").run
        .start = .error (.outletConflict "a") ⟨2⟩ ∧
      (makeMaterial none "uniform vec2 a;\nvoid main(in float a) { }" "void main() { }").run
        .start = .ok block rest ∧
      block.outlets.map (fun outlet => (outlet.name, outlet.type)) =
        [("a", .float), ("a", .vec2)] ∧
      ¬UnionByName twice plain (.ok block rest) := by
  refine ⟨_, _, _, _, rfl, rfl, rfl, rfl, rfl, fun union => ?_⟩
  exact absurd (union.distinct _ _ rfl) (by decide)

end Block
end ShaderBlocks
