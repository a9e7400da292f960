import ShaderBlocks.Proofs.CallSiteNames
import ShaderBlocks.Proofs.DefinedNames

/-!
# Names of different calls

The copy of a fragment for a call introduces names at the top level of a phase: the name of the
call for the entry function, and names inside the call for all else that the fragment defines.
Such names are put together from a phase, the name of a fragment, a number and names in the
source, with underscores between them. The name of a call tells its number, which stands at the
end. A name inside a call does not tell where the name of the call ends, since any name in the
source may hold underscores and digits.

So the names of two calls can meet. They do exactly when the name of one call goes on where the
name of the other ends, and the fragment of the other defines just what it goes on with. Calls
of fragments that have one name never meet.
-/

namespace ShaderBlocks

open Text Source

/-- The name of a call ends with its number. -/
theorem toList_callName (phase : Phase) (base : String) (owner : BlockIndex) :
    (callName phase base owner).toList =
      ("sg_" ++ phase.name ++ "_" ++ base).toList ++ '_' :: (toString owner).toList := by
  simp [callName]

/-- The name of a call tells its phase, its base and its number: the number stands behind the last
underscore, and the words for the phases differ in their first letter. -/
theorem callName_inj {phase otherPhase : Phase} {base otherBase : String}
    {owner other : BlockIndex}
    (same : callName phase base owner = callName otherPhase otherBase other) :
    phase = otherPhase ∧ base = otherBase ∧ owner = other := by
  have letters := congrArg String.toList same
  rw [toList_callName, toList_callName] at letters
  obtain ⟨starts, digits⟩ := Outlet.eq_of_append_underscore
    (Outlet.underscore_notMem_toString owner) (Outlet.underscore_notMem_toString other) letters
  have words : phase.name.toList ++ '_' :: base.toList =
      otherPhase.name.toList ++ '_' :: otherBase.toList := by
    simpa using starts
  have phases : phase = otherPhase := by
    cases phase with
    | vertex =>
      cases otherPhase with
      | vertex => rfl
      | fragment => simp [Phase.name] at words
    | fragment =>
      cases otherPhase with
      | vertex => simp [Phase.name] at words
      | fragment => rfl
  subst phases
  have bases := List.tail_eq_of_cons_eq (List.append_cancel_left words)
  exact ⟨rfl, String.toList_injective bases, Outlet.eq_of_toString_toList_eq digits⟩

/-- Calls of one name have one number. -/
theorem owner_eq_of_callName_eq {phase otherPhase : Phase} {base otherBase : String}
    {owner other : BlockIndex}
    (same : callName phase base owner = callName otherPhase otherBase other) : owner = other :=
  (callName_inj same).2.2

namespace Fragment

variable {fragment : Fragment} {call : String} {replaced : List String}

/-- What a fragment defines besides its entry, by the names in the source, with the uniforms that
are replaced. -/
def innerNames (fragment : Fragment) (replaced : List String) : List String :=
  (fragment.others.flatMap Item.definedNames).filter (· ≠ fragment.entry.name) ++
    (fragment.replacedUniforms replaced).map (·.name)

/-- The names that the copy of a fragment for a call introduces at the top level: that of the
entry, those of macros, other functions, globals and structures in their new spelling, and those
of the variables that stand for replaced uniforms. -/
def introducedNames (fragment : Fragment) (call : String) (replaced : List String) :
    List String :=
  call ::
    ((fragment.others.flatMap Item.definedNames).map (fragment.spellings call replaced).apply ++
      (fragment.replacedUniforms replaced).map fun u => localName call u.name)

/-- The new spelling of something that the fragment defines. -/
theorem apply_of_definedNames {name : String}
    (defined : name ∈ fragment.others.flatMap Item.definedNames) :
    (fragment.spellings call replaced).apply name =
      if name = fragment.entry.name then call else localName call name := by
  have isLocal : name ∈ fragment.localNames replaced := List.mem_append_left _ defined
  rw [Renaming.apply, spellings, if_pos isLocal]
  split <;> rfl

/-- A copy introduces the name of its call, and a name inside the call for each inner name. -/
theorem mem_introducedNames {name : String} :
    name ∈ fragment.introducedNames call replaced ↔
      name = call ∨ ∃ inner ∈ fragment.innerNames replaced, name = localName call inner := by
  simp only [introducedNames, innerNames, List.mem_cons, List.mem_append, List.mem_map,
    List.mem_filter, decide_eq_true_eq]
  constructor
  · rintro (rfl | ⟨inner, defined, rfl⟩ | ⟨u, isReplaced, rfl⟩)
    · exact .inl rfl
    · rw [apply_of_definedNames defined]
      split
      · exact .inl rfl
      · rename_i notEntry
        exact .inr ⟨inner, .inl ⟨defined, notEntry⟩, rfl⟩
    · exact .inr ⟨u.name, .inr ⟨u, isReplaced, rfl⟩, rfl⟩
  · rintro (rfl | ⟨inner, ⟨defined, notEntry⟩ | ⟨u, isReplaced, rfl⟩, rfl⟩)
    · exact .inl rfl
    · exact .inr (.inl ⟨inner, defined, by rw [apply_of_definedNames defined, if_neg notEntry]⟩)
    · exact .inr (.inr ⟨u, isReplaced, rfl⟩)

/-- The text of an item refers to the new spelling of what the item defines. -/
theorem apply_mem_itemReferences (spellings : Renaming) {item : Item} {name : String}
    (defined : name ∈ item.definedNames) :
    spellings.apply name ∈ itemReferences call replaced spellings item := by
  cases item with
  | directive text =>
    exact List.mem_map_of_mem (mem_references_of_definedMacro? (Option.mem_toList.mp defined))
  | global text => exact List.mem_map_of_mem (mem_references_of_mem_declaredNames defined)
  | uniform u => contradiction
  | function f =>
    rw [List.mem_singleton.mp defined]
    exact List.mem_append_right _ List.mem_cons_self

/-- The copy of a fragment refers to what its items refer to. -/
theorem itemReferences_subset {item : Item} (member : item ∈ fragment.others) :
    itemReferences call replaced (fragment.spellings call replaced) item ⊆
      fragment.copiedReferences call replaced := by
  intro name refers
  rcases List.mem_append.mp member with isBefore | isAfter
  · exact List.mem_append_left _ (List.mem_flatMap.mpr ⟨item, isBefore, refers⟩)
  · exact List.mem_append_right _
      (List.mem_append_right _ (List.mem_flatMap.mpr ⟨item, isAfter, refers⟩))

/-- The names that a copy introduces stand in its text. -/
theorem introducedNames_subset (named : fragment.IsNamed) (generated : IsGenerated call) :
    fragment.introducedNames call replaced ⊆
      references (fragment.render call replaced).toList := by
  rw [references_render named generated]
  intro name introduced
  rcases List.mem_cons.mp introduced with rfl | isInner
  · have inEntry : name ∈ fragment.entryReferences name replaced :=
      List.mem_append_right _ List.mem_cons_self
    exact List.mem_append_right _ (List.mem_append_left _ inEntry)
  · rcases List.mem_append.mp isInner with isDefined | isReplaced
    · obtain ⟨inner, defined, rfl⟩ := List.mem_map.mp isDefined
      obtain ⟨item, member, inItem⟩ := List.mem_flatMap.mp defined
      exact itemReferences_subset member (apply_mem_itemReferences _ inItem)
    · obtain ⟨u, fed, rfl⟩ := List.mem_map.mp isReplaced
      obtain ⟨isUniform, listed⟩ := List.mem_filter.mp fed
      have contains : replaced.contains u.name = true :=
        List.contains_iff_mem.mpr (of_decide_eq_true listed)
      apply itemReferences_subset (mem_uniforms.mp isUniform)
      rw [itemReferences, if_pos contains]
      exact List.mem_cons_of_mem _ List.mem_cons_self

/-- The base of the names of calls is a word. -/
theorem isWord_name_of_isRead (isRead : fragment.IsRead) : IsWord fragment.name.toList := by
  obtain ⟨name, source, read⟩ := isRead
  obtain ⟨raw, divided, read⟩ := bind_eq_ok.mp read
  obtain ⟨items, itemsRead, read⟩ := bind_eq_ok.mp read
  split at read
  · contradiction
  · obtain ⟨parameters, parametersRead, read⟩ := bind_eq_ok.mp read
    obtain rfl := Except.ok.inj read
    exact isWord_sanitize _

end Fragment

/-! ## Where names meet -/

/-- The name `other` of a call goes on where the name `call` ends, with one of `names`, or so that
one of `names` goes on from there with one of `otherNames`. -/
def MeetsWithin (call : String) (names : List String) (other : String)
    (otherNames : List String) : Prop :=
  ∃ rest, other = Fragment.localName call rest ∧
    (rest ∈ names ∨ ∃ inner ∈ otherNames, Fragment.localName rest inner ∈ names)

/-- A name inside a name inside a call. -/
theorem Fragment.localName_assoc (call rest inner : String) :
    localName (localName call rest) inner = localName call (localName rest inner) := by
  simp only [localName, String.append_assoc]

/-- If names inside two calls are the same, the name of one call is where that of the other goes
on. -/
theorem Fragment.localName_eq_localName {call other inner otherInner : String}
    (apart : call ≠ other) (same : localName call inner = localName other otherInner) :
    (∃ rest, other = localName call rest ∧ inner = localName rest otherInner) ∨
      ∃ rest, call = localName other rest ∧ otherInner = localName rest inner := by
  have letters := congrArg String.toList same
  have spelled : ∀ call inner : String,
      (localName call inner).toList = call.toList ++ '_' :: inner.toList := by
    intro call inner
    simp [localName]
  rw [spelled, spelled] at letters
  have goesOn : ∀ {first second firstInner secondInner : String} {gap : List Char},
      first ≠ second → second.toList = first.toList ++ gap →
      '_' :: firstInner.toList = gap ++ '_' :: secondInner.toList →
        ∃ rest, second = localName first rest ∧ firstInner = localName rest secondInner := by
    intro first second firstInner secondInner gap apart longer behind
    cases gap with
    | nil =>
      rw [List.append_nil] at longer
      exact absurd (String.toList_injective longer).symm apart
    | cons c rest =>
      rw [List.cons_append, List.cons.injEq] at behind
      obtain ⟨rfl, isInner⟩ := behind
      refine ⟨String.ofList rest, String.toList_injective ?_, String.toList_injective ?_⟩
      · rw [spelled, String.toList_ofList, longer]
      · rw [spelled, String.toList_ofList, isInner]
  rcases List.append_eq_append_iff.mp letters with ⟨gap, longer, behind⟩ | ⟨gap, longer, behind⟩
  · exact .inl (goesOn apart longer behind)
  · exact .inr (goesOn apart.symm longer behind)

/-- The names that two calls of different names introduce are disjoint exactly if neither call
meets the other. -/
theorem Fragment.disjoint_introducedNames {first second : Fragment} {call other : String}
    {replaced otherReplaced : List String} (apart : call ≠ other) :
    (first.introducedNames call replaced).Disjoint
        (second.introducedNames other otherReplaced) ↔
      ¬MeetsWithin call (first.innerNames replaced) other (second.innerNames otherReplaced) ∧
        ¬MeetsWithin other (second.innerNames otherReplaced) call
          (first.innerNames replaced) := by
  have shared : ∀ {one two : Fragment} {call other : String} {replaced more : List String},
      MeetsWithin call (one.innerNames replaced) other (two.innerNames more) →
        ∃ name ∈ one.introducedNames call replaced, name ∈ two.introducedNames other more := by
    rintro one two call other replaced more ⟨rest, rfl, inner | ⟨inner, isInner, further⟩⟩
    · exact ⟨_, mem_introducedNames.mpr (.inr ⟨rest, inner, rfl⟩),
        mem_introducedNames.mpr (.inl rfl)⟩
    · refine ⟨_, mem_introducedNames.mpr (.inr ⟨_, further, rfl⟩),
        mem_introducedNames.mpr (.inr ⟨inner, isInner, ?_⟩)⟩
      rw [localName_assoc]
  constructor
  · intro disjoint
    constructor
    · intro meets
      obtain ⟨name, inFirst, inSecond⟩ := shared meets
      exact disjoint inFirst inSecond
    · intro meets
      obtain ⟨name, inSecond, inFirst⟩ := shared meets
      exact disjoint inFirst inSecond
  · rintro ⟨noMeeting, noReverse⟩ name inFirst inSecond
    rcases mem_introducedNames.mp inFirst with rfl | ⟨inner, isInner, rfl⟩
    · rcases mem_introducedNames.mp inSecond with same | ⟨inner, isInner, same⟩
      · exact apart same
      · exact noReverse ⟨inner, same, .inl isInner⟩
    · rcases mem_introducedNames.mp inSecond with same | ⟨otherInner, isOtherInner, same⟩
      · exact noMeeting ⟨inner, same.symm, .inl isInner⟩
      · rcases localName_eq_localName apart same with ⟨rest, goesOn, rfl⟩ | ⟨rest, goesOn, rfl⟩
        · exact noMeeting ⟨rest, goesOn, .inr ⟨otherInner, isOtherInner, isInner⟩⟩
        · exact noReverse ⟨rest, goesOn, .inr ⟨inner, isInner, isOtherInner⟩⟩

/-- The name of a call does not go on where the name of a call with the same base ends: behind the
base there is nothing but a number. -/
theorem callName_ne_localName (phase : Phase) (base : String) (owner other : BlockIndex)
    (rest : String) :
    callName phase base other ≠ Fragment.localName (callName phase base owner) rest := by
  intro same
  have letters := congrArg String.toList same
  have spelled : (Fragment.localName (callName phase base owner) rest).toList =
      ("sg_" ++ phase.name ++ "_" ++ base).toList ++
        '_' :: ((toString owner).toList ++ '_' :: rest.toList) := by
    rw [Fragment.localName, String.toList_append, String.toList_append, toList_callName]
    simp
  rw [spelled, toList_callName] at letters
  have digits := List.tail_eq_of_cons_eq (List.append_cancel_left letters)
  apply Outlet.underscore_notMem_toString other
  rw [digits]
  exact List.mem_append_right _ List.mem_cons_self

namespace Block

/-- What the copy for a call of a block introduces. -/
def introduced (block : Block) (call : Call) : List String :=
  (block.fragmentFor call.phase).introducedNames call.name (block.callee call.phase).replaced

/-- What the fragment that a call of a block is made of defines besides its entry. -/
def inner (block : Block) (call : Call) : List String :=
  (block.fragmentFor call.phase).innerNames (block.callee call.phase).replaced

end Block

namespace Graph

/-- A call of a compiled material has the name that its place gives it. -/
theorem Emitted.name_of_call {graph : Graph} {material : BlockIndex} {program : Program}
    (emitted : graph.Emitted material program) {call : Call} {block : Block}
    (member : call ∈ program.calls) (found : graph.find? call.origin = some block) :
    call.name = callName call.phase (block.fragmentFor call.phase).name call.origin := by
  obtain ⟨before, after, split⟩ := List.append_of_mem member
  obtain ⟨other, priority, otherFound, isCall, -⟩ := emitted.block_of_call split
  have origin : call.origin = other.index := congrArg Call.origin isCall
  rw [origin, otherFound, Option.some.injEq] at found
  have name := congrArg Call.name isCall
  rw [origin, ← found]
  exact name

/-- The names that a call of a compiled material introduces stand in its text. -/
theorem Emitted.introduced_subset {graph : Graph} {material : BlockIndex} {program : Program}
    (emitted : graph.Emitted material program) (obtainable : graph.Obtainable) {call : Call}
    {block : Block} (member : call ∈ program.calls) (invokes : graph.Invokes block call) :
    block.introduced call ⊆ references call.body.toList := by
  have isRead : (block.fragmentFor call.phase).IsRead :=
    (obtainable.isRead block (find?_eq_some.mp invokes.found).1).fragmentFor call.phase
  have letters := (Fragment.isWord_name_of_isRead isRead).2
  have generated : IsGenerated call.name := by
    rw [emitted.name_of_call member invokes.found]
    exact isGenerated_callName call.phase letters call.origin
  rw [invokes.body]
  exact Fragment.introducedNames_subset (Fragment.isNamed_of_isRead isRead) generated

end Graph

namespace Sample

/-- A fragment whose constant has a name that ends like a number. -/
def toneFragment : Fragment :=
  ⟨"a", [.global "const float b_2 = 1.0;"],
    ⟨"void", "main", [⟨"y", .float, .output⟩], "\x7b y = b_2; \x7d"⟩, []⟩

/-- A fragment that hands its input on. -/
def relayFragment : Fragment :=
  ⟨"a_1_b", [],
    ⟨"void", "main", [⟨"x", .float, .input⟩, ⟨"y", .float, .output⟩], "\x7b y = x; \x7d"⟩, []⟩

/-- The tone, as the first block. -/
def tone : Block :=
  ⟨1, .snippet toneFragment,
    ⟨some 1, [⟨⟨"y", .float, .output, .parameter, none⟩, "v_y_1_0", none⟩]⟩, none, [], [], rfl⟩

/-- The relay, as the second block, with what feeds it. -/
def relay (feed : Option Endpoint) : Block :=
  ⟨2, .snippet relayFragment,
    ⟨some 2, [⟨⟨"x", .float, .input, .parameter, none⟩, "v_x_2_0", feed⟩,
      ⟨⟨"y", .float, .output, .parameter, none⟩, "v_y_2_1", none⟩]⟩, none, [], [], rfl⟩

/-- The tone, the relay and a canvas, with some links. -/
def relayedWith (first second : Option Endpoint) : Graph :=
  ⟨[tone, relay first, { canvas second with
    index := 3
    node := ⟨some 3, [⟨⟨"xIn", .float, .input, .parameter, none⟩, "v_x_3_0", second⟩]⟩
    owned := rfl }],
    by simp [tone, relay]⟩

/-- The canvas reads the relay, and the relay the tone. -/
def relayed : Graph :=
  relayedWith (some ⟨1, "y"⟩) (some ⟨2, "y"⟩)

/-- The graph with the relay can be built. -/
theorem relayed_built : relayed.Built := by
  have toneRead : (BlockKind.snippet toneFragment).IsRead :=
    ⟨some "a", "const float b_2 = 1.0;\nvoid main(out float y) \x7b y = b_2; \x7d", rfl⟩
  have relayRead : (BlockKind.snippet relayFragment).IsRead :=
    ⟨some "a_1_b", "void main(in float x, out float y) \x7b y = x; \x7d", rfl⟩
  have canvasRead : (BlockKind.material idle canvasFragment).IsRead :=
    ⟨⟨some "material", "void main() \x7b \x7d", rfl⟩,
      ⟨some "material", "void main(in float xIn) \x7b gl_FragColor = vec4(xIn); \x7d", rfl⟩⟩
  have first : Relation.ReflTransGen Workshop.Step .start ⟨⟨2⟩, [], .insert .empty tone⟩ :=
    Workshop.reachable_insert .refl toneRead rfl
  have second : Relation.ReflTransGen Workshop.Step .start
      ⟨⟨3⟩, [], (Graph.insert .empty tone).insert (relay none)⟩ :=
    Workshop.reachable_insert first relayRead rfl
  have added : (relayedWith none none).Built :=
    ⟨⟨⟨4⟩, [], _⟩, Workshop.reachable_insert second canvasRead rfl, rfl⟩
  have linked : (relayedWith (some ⟨1, "y"⟩) none).Built :=
    added.connect ⟨1, "y"⟩ ⟨2, "x"⟩ rfl
  exact linked.connect ⟨2, "y"⟩ ⟨3, "xIn"⟩ rfl

/-- What the tone compiles to in the graph with the relay. -/
def toneCall : Call :=
  ⟨.fragment, 1, "sg_fragment_a_1", ["v_y_1_0"], 2,
    "const float sg_fragment_a_1_b_2 = 1.0;\nvoid sg_fragment_a_1(out float y) " ++
      "\x7b y = sg_fragment_a_1_b_2; \x7d"⟩

/-- What the relay compiles to. -/
def relayCall : Call :=
  ⟨.fragment, 2, "sg_fragment_a_1_b_2", ["v_y_1_0", "v_y_2_1"], 1,
    "void sg_fragment_a_1_b_2(in float x, out float y) \x7b y = x; \x7d"⟩

/-- The canvas compiles, with one call for the tone and one for the relay. -/
theorem relayed_compiles :
    ∃ compiled, relayed.compile 3 = .ok compiled ∧ toneCall ∈ compiled.calls ∧
      relayCall ∈ compiled.calls := by
  have ran : (relayed.compile 3).toOption.map (fun compiled => compiled.calls[1]?) =
      some (some toneCall) := rfl
  have ranNext : (relayed.compile 3).toOption.map (fun compiled => compiled.calls[2]?) =
      some (some relayCall) := rfl
  cases compiles : relayed.compile 3 with
  | error error =>
    rw [compiles] at ran
    contradiction
  | ok compiled =>
    rw [compiles] at ran ranNext
    exact ⟨compiled, rfl, List.mem_of_getElem? (Option.some.inj ran),
      List.mem_of_getElem? (Option.some.inj ranNext)⟩

end Sample

namespace Graph

/-- Two calls of one phase have different names, and the names that their texts introduce at the
top level are disjoint exactly if neither call meets the other. Calls of fragments that have one
name do not meet. -/
theorem introduced_disjoint_iff {graph : Graph} {material : BlockIndex}
    {compiled : CompiledProgram} (built : graph.Built)
    (compiles : graph.compile material = .ok compiled) {first second : Call}
    (member : first ∈ compiled.calls) (otherMember : second ∈ compiled.calls)
    (apart : first ≠ second) (together : first.phase = second.phase) :
    first.name ≠ second.name ∧
      ∃ block other, graph.Invokes block first ∧ graph.Invokes other second ∧
        block.introduced first ⊆ references first.body.toList ∧
        other.introduced second ⊆ references second.body.toList ∧
        ((block.introduced first).Disjoint (other.introduced second) ↔
          ¬MeetsWithin first.name (block.inner first) second.name (other.inner second) ∧
            ¬MeetsWithin second.name (other.inner second) first.name (block.inner first)) ∧
        ((block.fragmentFor first.phase).name = (other.fragmentFor second.phase).name →
          (block.introduced first).Disjoint (other.introduced second)) := by
  obtain ⟨-, program, -, -, emitted, rfl⟩ := emitted_of_compile compiles
  obtain ⟨block, invokes⟩ := emitted.invokes built.lawful member
  obtain ⟨other, otherInvokes⟩ := emitted.invokes built.lawful otherMember
  have name := emitted.name_of_call member invokes.found
  have otherName := emitted.name_of_call otherMember otherInvokes.found
  -- The number at the end of the name is that of the block, which is called once in a phase.
  have named : first.name ≠ second.name := by
    intro same
    rw [name, otherName] at same
    have keys : first.key = second.key := Prod.ext (owner_eq_of_callName_eq same) together
    exact apart (List.inj_on_of_nodup_map emitted.tracked.calledOnce member otherMember keys)
  have exactly : (block.introduced first).Disjoint (other.introduced second) ↔
      ¬MeetsWithin first.name (block.inner first) second.name (other.inner second) ∧
        ¬MeetsWithin second.name (other.inner second) first.name (block.inner first) :=
    Fragment.disjoint_introducedNames named
  refine ⟨named, block, other, invokes, otherInvokes,
    emitted.introduced_subset built.obtainable member invokes,
    emitted.introduced_subset built.obtainable otherMember otherInvokes, exactly, fun same => ?_⟩
  refine exactly.mpr ⟨?_, ?_⟩
  · rintro ⟨rest, goesOn, -⟩
    rw [name, otherName, same, together] at goesOn
    exact callName_ne_localName _ _ _ _ rest goesOn
  · rintro ⟨rest, goesOn, -⟩
    rw [name, otherName, same, together] at goesOn
    exact callName_ne_localName _ _ _ _ rest goesOn

/-- In the sample the name of the relay's call goes on where that of the tone's call ends, with the
name of the constant. -/
theorem introduced_disjoint_iff_sample :
    Sample.relayed.Built ∧ ∃ compiled, Sample.relayed.compile 3 = .ok compiled ∧
      Sample.toneCall ∈ compiled.calls ∧ Sample.relayCall ∈ compiled.calls ∧
      Sample.toneCall ≠ Sample.relayCall ∧ Sample.toneCall.phase = Sample.relayCall.phase ∧
      Sample.toneCall.name ≠ Sample.relayCall.name ∧
      ∃ block other, Sample.relayed.Invokes block Sample.toneCall ∧
        Sample.relayed.Invokes other Sample.relayCall ∧
        ¬(block.introduced Sample.toneCall).Disjoint (other.introduced Sample.relayCall) := by
  obtain ⟨compiled, compiles, member, otherMember⟩ := Sample.relayed_compiles
  have apart : Sample.toneCall ≠ Sample.relayCall := by decide
  obtain ⟨named, block, other, invokes, otherInvokes, -, -, exactly, -⟩ :=
    introduced_disjoint_iff Sample.relayed_built compiles member otherMember apart rfl
  refine ⟨Sample.relayed_built, compiled, compiles, member, otherMember, apart, rfl, named, block,
    other, invokes, otherInvokes, fun disjoint => (exactly.mp disjoint).1 ⟨"b_2", by decide, ?_⟩⟩
  have isTone : block = Sample.tone := (Option.some.inj invokes.found).symm
  rw [isTone]
  exact .inl (by decide)

/-- The canvas compiles to a phase with two calls that both introduce one name: a constant in the
text of the first, and the function in the text of the second. -/
theorem introduced_twice_relayed :
    Sample.relayed.Built ∧ ∃ compiled, Sample.relayed.compile 3 = .ok compiled ∧
      Sample.toneCall ∈ compiled.calls ∧ Sample.relayCall ∈ compiled.calls ∧
      Sample.toneCall ≠ Sample.relayCall ∧ Sample.toneCall.phase = Sample.relayCall.phase ∧
      Sample.relayed.Invokes Sample.tone Sample.toneCall ∧
      Sample.relayed.Invokes (Sample.relay (some ⟨1, "y"⟩)) Sample.relayCall ∧
      "sg_fragment_a_1_b_2" ∈ Sample.tone.introduced Sample.toneCall ∧
      "sg_fragment_a_1_b_2" ∈
        (Sample.relay (some ⟨1, "y"⟩)).introduced Sample.relayCall ∧
      (∃ copy, Fragment.read none Sample.toneCall.body = .ok copy ∧
        "sg_fragment_a_1_b_2" ∈ copy.topLevelNames []) ∧
      ∃ copy, Fragment.read none Sample.relayCall.body = .ok copy ∧
        "sg_fragment_a_1_b_2" ∈ copy.topLevelNames [] := by
  obtain ⟨compiled, compiles, member, otherMember⟩ := Sample.relayed_compiles
  refine ⟨Sample.relayed_built, compiled, compiles, member, otherMember, by decide, rfl,
    ⟨rfl, by decide, by decide, by decide⟩, ⟨rfl, by decide, by decide, by decide⟩,
    by decide, by decide, ⟨_, rfl, by decide⟩, ⟨_, rfl, by decide⟩⟩

end Graph

end ShaderBlocks
