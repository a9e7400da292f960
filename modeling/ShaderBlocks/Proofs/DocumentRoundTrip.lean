import ShaderBlocks.Document.Reader
import ShaderBlocks.Document.Writer
import ShaderBlocks.Proofs.JsonTidiness

/-!
# Saved documents are loaded again

A document whose properties hold only whole numbers of 64 bits is loaded from its text as it was
saved, if the keys of its maps ascend and its text is not nested deeper than documents may be. A
document that was loaded has such keys and is not nested so deep, however its text was written: as
objects or as arrays of fields, in any order, with the types of blocks as words or as numbers. So it
is the same after it is saved and loaded again.
-/

namespace ShaderBlocks

open Json

namespace Json

/-! ## Values of a known shape -/

/-- What is made of a value that is taken off. -/
theorem Takes.map {α β : Type} {reader : Reader α} {text : List Char} {given : α}
    (takes : Takes reader text given) (make : α → β) :
    Takes (reader >>= fun given => pure (make given)) text (make given) := by
  intro rest closes
  rw [bind_of_ok (takes rest closes)]
  rfl

/-- A text is read again. -/
theorem takes_text (room : Nat) (text : String) :
    Takes (Decoder.text room) (compact (.string text)).toList text := by
  intro rest _
  have taken : advance ('"' :: (text.toList.flatMap escape ++ '"' :: rest)) =
      .ok ((), text.toList.flatMap escape ++ '"' :: rest) := rfl
  rw [toList_compact_string, Decoder.text, bind_of_ok (peek?_cons rfl _)]
  simp only [if_true]
  rw [bind_of_ok taken]
  exact keepString_escape text rest

/-- A text or the absence of one is read again. -/
theorem takes_optionalText (room : Nat) (text : Option String) :
    Takes (Decoder.optionalText room) (stringOrNull text).compact.toList text := by
  intro rest closes
  cases text with
  | none =>
    have expected := expect_append "null".toList rest
    change Decoder.optionalText room ('n' :: ("ull".toList ++ rest)) = _
    rw [Decoder.optionalText, bind_of_ok (peek?_cons rfl _)]
    exact bind_of_ok expected
  | some text =>
    have read := takes_text room text rest closes
    change Decoder.optionalText room ((compact (.string text)).toList ++ rest) = _
    rw [toList_compact_string] at read ⊢
    rw [Decoder.optionalText, bind_of_ok (peek?_cons rfl _)]
    exact bind_of_ok read

/-- An array is read again if its elements are. -/
theorem takes_list {α : Type} {element : Decoder α} {room : Nat} {write : α → Json}
    {values : List α}
    (read : ∀ one ∈ values, Takes (element room) (write one).compact.toList one)
    (whole : ∀ one ∈ values, (write one).isWhole = true) :
    Takes (Decoder.list element (room + 1)) (compact (.array (values.map write))).toList
      values := by
  have all : List.Forall₂ (Takes (element room))
      ((values.map write).map fun json => json.compact.toList) values := by
    rw [List.map_map, List.forall₂_map_left_iff, List.forall₂_same]
    exact read
  have starts : ∀ text ∈ (values.map write).map fun json => json.compact.toList,
      StartsElement text := by
    intro text member
    rw [List.map_map] at member
    obtain ⟨one, isOne, rfl⟩ := List.mem_map.mp member
    exact startsElement_compact (whole one isOne)
  intro rest _
  rw [toList_compact_array, List.cons_append, List.append_assoc, List.singleton_append,
    Decoder.list, bind_of_ok (peek?_cons rfl _)]
  exact elements_intercalate all starts rest

/-- A tidy map with whole numbers is read again. -/
theorem takes_map {room : Nat} {fields : List (String × Json)}
    (tidy : Tidy (room + 1) (.object fields)) (whole : (Json.object fields).every isWhole = true) :
    Takes (Decoder.map (room + 1)) (compact (.object fields)).toList fields := by
  rw [every, Bool.and_eq_true, everyField_iff] at whole
  obtain ⟨ascend, inside⟩ := tidy_object_iff.mp tidy
  have read : ∀ field ∈ fields, Takes (value room) field.2.compact.toList field.2 :=
    fun field member => takes_value (inside field member) (whole.2 field member)
  intro rest _
  rw [toList_compact_object, List.cons_append, List.append_assoc, List.singleton_append,
    Decoder.map, bind_of_ok (peek?_cons rfl _)]
  exact mapFields_intercalate ascend read rest

section Records

variable {σ α : Type} {known : List (RecordField σ)} {other : σ → String → Decoder σ}
  {room : Nat} {state next final : σ} {key : String} {json : Json}
  {fields : List (String × Json)}

/-- A known field that was not read before leads to the state that it fills. -/
theorem Gathers.fill {field : RecordField σ} (found : known.find? (·.key == key) = some field)
    (isEmpty : field.isFilled state = false)
    (fills : Takes (field.fill state room) json.compact.toList next)
    (further : Gathers (Decoder.readField known other room) next (fieldParts fields) final) :
    Gathers (Decoder.readField known other room) state (fieldParts ((key, json) :: fields))
      final := by
  refine .cons (fun rest closes => ?_) further
  rw [List.cons_append, Decoder.readField, found]
  simp only [isEmpty, Bool.false_eq_true, if_false]
  rw [bind_of_ok (takeMark_cons rfl _)]
  exact fills rest closes

/-- A field that is not known leads to the state that is made of it. -/
theorem Gathers.keep (absent : known.find? (·.key == key) = none)
    (takes : Takes (other state key room) json.compact.toList next)
    (further : Gathers (Decoder.readField known other room) next (fieldParts fields) final) :
    Gathers (Decoder.readField known other room) state (fieldParts ((key, json) :: fields))
      final := by
  refine .cons (fun rest closes => ?_) further
  rw [List.cons_append, Decoder.readField, absent]
  dsimp only
  rw [bind_of_ok (takeMark_cons rfl _)]
  exact takes rest closes

/-- An object is read again if its fields lead to a state from which it is made. -/
theorem takes_object {finish : σ → Option α} {made : α}
    (gathers : Gathers (Decoder.readField known other room) state (fieldParts fields) final)
    (finishes : finish final = some made) (rest : List Char) :
    Decoder.object known other state finish (room + 1) ((compact (.object fields)).toList ++ rest) =
      .ok (made, rest) := by
  have taken : ∀ behind, advance ('{' :: behind) = .ok ((), behind) := fun _ => rfl
  have completed : ∀ behind, Decoder.complete (finish final) behind = .ok (made, behind) := by
    intro behind
    rw [finishes]
    rfl
  rw [toList_compact_object, List.cons_append, List.append_assoc, List.singleton_append,
    Decoder.object, Decoder.descend, bind_of_ok (taken _),
    bind_of_ok (fields_intercalate gathers rest), bind_of_ok (completed _),
    bind_of_ok (takeMark_cons rfl _)]
  rfl

/-- A record is read again from an object. -/
theorem takes_record {finish : σ → Option α} {made : α}
    (gathers : Gathers (Decoder.readField known Decoder.passField room) state
      (fieldParts fields) final) (finishes : finish final = some made) :
    Takes (Decoder.record known state finish (room + 1)) (compact (.object fields)).toList
      made := by
  intro rest _
  have read := takes_object gathers finishes rest
  rw [toList_compact_object, List.cons_append] at read ⊢
  rw [Decoder.record, bind_of_ok (peek?_cons rfl _)]
  exact read

end Records

end Json

/-! ## Documents -/

/-- Metadata is read again. -/
theorem Metadata.takes_decoder (room : Nat) (metadata : Metadata) :
    Takes (Metadata.decoder (room + 1)) metadata.toJson.compact.toList metadata := by
  have gathers : Gathers (Decoder.readField knownFields Decoder.passField room) {}
      (fieldParts [("name", .string metadata.name), ("created", stringOrNull metadata.created),
        ("modified", stringOrNull metadata.modified)])
      ⟨some metadata.name, some metadata.created, some metadata.modified⟩ := by
    refine .fill rfl rfl ((takes_text room metadata.name).map _) ?_
    refine .fill rfl rfl ((takes_optionalText room metadata.created).map _) ?_
    exact .fill rfl rfl ((takes_optionalText room metadata.modified).map _) .nil
  exact takes_record gathers rfl

/-- An end of a link is read again. -/
theorem ConnectionEnd.takes_decoder (room : Nat) (endpoint : ConnectionEnd) :
    Takes (ConnectionEnd.decoder (room + 1)) endpoint.toJson.compact.toList endpoint := by
  have gathers : Gathers (Decoder.readField knownFields Decoder.passField room) {}
      (fieldParts [("blockId", .string endpoint.blockId), ("outlet", .string endpoint.outlet)])
      ⟨some endpoint.blockId, some endpoint.outlet⟩ := by
    refine .fill rfl rfl ((takes_text room endpoint.blockId).map _) ?_
    exact .fill rfl rfl ((takes_text room endpoint.outlet).map _) .nil
  exact takes_record gathers rfl

/-- A link is read again. -/
theorem Connection.takes_decoder (room : Nat) (connection : Connection) :
    Takes (Connection.decoder (room + 2)) connection.toJson.compact.toList connection := by
  have gathers : Gathers (Decoder.readField knownFields Decoder.passField (room + 1)) {}
      (fieldParts [("id", stringOrNull connection.id), ("from", connection.source.toJson),
        ("to", connection.target.toJson)])
      ⟨some connection.id, some connection.source, some connection.target⟩ := by
    refine .fill rfl rfl ((takes_optionalText (room + 1) connection.id).map _) ?_
    refine .fill rfl rfl ((ConnectionEnd.takes_decoder room connection.source).map _) ?_
    exact .fill rfl rfl ((ConnectionEnd.takes_decoder room connection.target).map _) .nil
  exact takes_record gathers rfl

namespace BlockDefinition

/-- A field with a text is kept until the block ends. -/
theorem takes_keepField (room : Nat) (parts : BlockParts) (key text : String) :
    Takes (keepField parts key room) (compact (.string text)).toList
      { parts with others := parts.others ++ [(key, .string text)] } := by
  have read : Takes (value room) (compact (.string text)).toList (.string text) :=
    takes_value ⟨rfl, Nat.zero_le room⟩ rfl
  exact read.map _

/-- The fields of a source are kept until the block ends. -/
theorem gathers_source (room : Nat) (source : BlockSource) {id : String}
    {fields : List (String × Json)} {final : BlockParts}
    (further : Gathers (Decoder.readField knownFields keepField room)
      { id := some id, others := source.fields } (fieldParts fields) final) :
    Gathers (Decoder.readField knownFields keepField room) { id := some id }
      (fieldParts (source.fields ++ fields)) final := by
  cases source with
  | snippet code =>
    refine .keep rfl (takes_keepField room _ "type" "snippet") ?_
    exact .keep rfl (takes_keepField room _ "code" code) further
  | material vertex fragment =>
    refine .keep rfl (takes_keepField room _ "type" "material") ?_
    refine .keep rfl (takes_keepField room _ "vertex" vertex) ?_
    exact .keep rfl (takes_keepField room _ "fragment" fragment) further

/-- The source of a block is told by its fields. -/
theorem ofFields?_fields (source : BlockSource) :
    BlockSource.ofFields? source.fields = some source := by
  cases source with
  | snippet code => rfl
  | material vertex fragment => rfl

/-- A block with tidy properties that hold whole numbers is read again. -/
theorem takes_decoder {room : Nat} {block : BlockDefinition}
    (tidy : Tidy (room + 1) (.object block.properties))
    (whole : (Json.object block.properties).every isWhole = true) :
    Takes (BlockDefinition.decoder (room + 2)) block.toJson.compact.toList block := by
  have gathers : Gathers (Decoder.readField knownFields keepField (room + 1)) {}
      (fieldParts ([("id", .string block.id)] ++ block.source.fields ++ [
        ("name", stringOrNull block.name), ("parent", stringOrNull block.parent),
        ("properties", .object block.properties)]))
      ⟨some block.id, some block.name, some block.parent, some block.properties,
        block.source.fields⟩ := by
    rw [List.append_assoc]
    refine .fill rfl rfl ((takes_text (room + 1) block.id).map _) ?_
    refine gathers_source (room + 1) block.source ?_
    refine .fill rfl rfl ((takes_optionalText (room + 1) block.name).map _) ?_
    refine .fill rfl rfl ((takes_optionalText (room + 1) block.parent).map _) ?_
    exact .fill rfl rfl ((takes_map tidy whole).map _) .nil
  have made : ofParts? ⟨some block.id, some block.name, some block.parent, some block.properties,
      block.source.fields⟩ = some block := by
    simp [ofParts?, ofFields?_fields]
  intro rest _
  have read := takes_object gathers made rest
  rw [toList_compact_object, List.cons_append] at read
  rw [toJson, toList_compact_object, List.cons_append, decoder, bind_of_ok (peek?_cons rfl _)]
  exact read

end BlockDefinition

namespace Document

/-- The nesting that a property of a block may have: around it there are the map of the properties,
the block, the list of blocks and the document. -/
def propertyRoom : Nat := 123

/-- A document is read again if the properties of its blocks are tidy and hold whole numbers. -/
theorem read_write_of_tidy {document : Document}
    (tidy : ∀ block ∈ document.blocks, Tidy (propertyRoom + 1) (.object block.properties))
    (whole : ∀ block ∈ document.blocks, (Json.object block.properties).every isWhole = true) :
    Document.read document.write = .ok document := by
  have blocks : Takes (Decoder.list BlockDefinition.decoder 126)
      (compact (.array (document.blocks.map BlockDefinition.toJson))).toList document.blocks :=
    takes_list (fun block member => BlockDefinition.takes_decoder (tidy block member)
      (whole block member)) fun block _ => rfl
  have connections : Takes (Decoder.list Connection.decoder 126)
      (compact (.array (document.connections.map Connection.toJson))).toList
      document.connections :=
    takes_list (fun connection _ => Connection.takes_decoder 123 connection) fun connection _ => rfl
  have gathers : Gathers (Decoder.readField knownFields Decoder.passField 126) {}
      (fieldParts [("version", .string document.version), ("metadata", document.metadata.toJson),
        ("blocks", .array (document.blocks.map BlockDefinition.toJson)),
        ("connections", .array (document.connections.map Connection.toJson)),
        ("material", stringOrNull document.material)])
      ⟨some document.version, some document.metadata, some document.blocks,
        some document.connections, some document.material⟩ := by
    refine .fill rfl rfl ((takes_text 126 document.version).map _) ?_
    refine .fill rfl rfl ((Metadata.takes_decoder 125 document.metadata).map _) ?_
    refine .fill rfl rfl (blocks.map _) ?_
    refine .fill rfl rfl (connections.map _) ?_
    exact .fill rfl rfl ((takes_optionalText 126 document.material).map _) .nil
  have takes : Takes (Document.decoder documentRoom) document.write.toList document :=
    takes_record gathers rfl
  have read := takes [] (by simp [Closes])
  rw [List.append_nil] at read
  rw [Document.read, readWhole, read]
  rfl

end Document

/-! ## Loaded documents are tidy -/

namespace Json

/-- A reader that finds another shape gives nothing. -/
theorem yields_mismatch {α : Type} {property : α → Prop} :
    Yields Decoder.mismatch property :=
  .after fun _ => .throw .mismatched

/-- The elements of an array have the property of each of them. -/
theorem yields_list {α : Type} {element : Decoder α} {room : Nat} {property : α → Prop}
    (each : Yields (element room) property) :
    Yields (Decoder.list element (room + 1)) fun values => ∀ one ∈ values, property one := by
  refine .after fun next => ?_
  cases next with
  | none => exact .throw .ended
  | some c => exact .ite (fun _ => .after fun _ => yields_elements each) fun _ => yields_mismatch

/-- Maps that are read are tidy. -/
theorem yields_map (room : Nat) :
    Yields (Decoder.map (room + 1)) fun fields => Tidy (room + 1) (.object fields) := by
  refine .after fun next => ?_
  cases next with
  | none => exact .throw .ended
  | some c =>
    exact .ite (fun _ => .after fun _ => yields_mapFields (yields_value room))
      fun _ => yields_mismatch

section Records

variable {σ α : Type} {known : List (RecordField σ)} {other : σ → String → Decoder σ} {room : Nat}
  {holds : σ → Prop} {start : σ} {finish : σ → Option α} {property : α → Prop}

/-- What is made of a state has the property that the state promises. -/
theorem yields_complete {state : σ}
    (made : ∀ record, finish state = some record → property record) :
    Yields (Decoder.complete (finish state)) property := by
  cases finished : finish state with
  | none => exact .throw .mismatched
  | some record => exact .pure (made record finished)

variable (fills : ∀ field ∈ known, ∀ state, holds state → Yields (field.fill state room) holds)

include fills

/-- What known and other fields keep is kept by each field. -/
theorem yields_readField
    (keeps : ∀ state key, holds state → Yields (other state key room) holds) (state : σ)
    (key : String) (has : holds state) :
    Yields (Decoder.readField known other room state key) holds := by
  rw [Decoder.readField]
  split
  · rename_i field found
    refine .ite (fun _ => .throw .mismatched) fun _ => .after fun _ => ?_
    exact fills field (List.mem_of_find?_eq_some found) state has
  · exact .after fun _ => keeps state key has

/-- What known fields keep is kept by an array of them. -/
theorem yields_readInOrder (first : Bool) (has : holds start) :
    Yields (Decoder.readInOrder room first start known) holds := by
  induction known generalizing first start with
  | nil => exact .pure has
  | cons field known ih =>
    obtain ⟨fillsFirst, fillsOthers⟩ := List.forall_mem_cons.mp fills
    refine .after fun further => .ite (fun _ => ?_) fun _ => .pure has
    exact (fillsFirst start has).bind fun next nextHas => ih fillsOthers false nextHas

/-- An object has the property that its fields promise. -/
theorem yields_object (keeps : ∀ state key, holds state → Yields (other state key room) holds)
    (has : holds start)
    (made : ∀ state record, holds state → finish state = some record → property record) :
    Yields (Decoder.object known other start finish (room + 1)) property := by
  refine .after fun _ => (yields_fields (yields_readField fills keeps) has).bind
    fun state stateHas => ?_
  exact (yields_complete fun record => made state record stateHas).bind fun record recordHas =>
    .after fun _ => .pure recordHas

/-- A record has the property that its fields promise. -/
theorem yields_record (has : holds start)
    (made : ∀ state record, holds state → finish state = some record → property record) :
    Yields (Decoder.record known start finish (room + 1)) property := by
  have object : Yields (Decoder.object known Decoder.passField start finish (room + 1)) property :=
    yields_object fills (fun state key stateHas => .after fun _ => .pure stateHas) has made
  refine .after fun next => ?_
  cases next with
  | none => exact .throw .ended
  | some c =>
    refine .ite (fun _ => object) fun _ => ?_
    refine .ite (fun _ => .after fun _ => ?_) fun _ => yields_mismatch
    refine (yields_readInOrder fills true has).bind fun state stateHas => ?_
    exact (yields_complete fun record => made state record stateHas).bind fun record recordHas =>
      .after fun _ => .pure recordHas

end Records

end Json

namespace BlockDefinition

/-- A block has the properties that were read, or none. -/
theorem properties_of_parts {parts : BlockParts} {block : BlockDefinition}
    (made : ofParts? parts = some block) : block.properties = parts.properties.getD [] := by
  simp only [ofParts?, Option.bind_eq_bind, Option.bind_eq_some_iff, Option.pure_def,
    Option.some.injEq] at made
  obtain ⟨id, -, source, -, rfl⟩ := made
  rfl

/-- The properties of blocks that are read are tidy. -/
theorem yields_decoder (room : Nat) :
    Yields (BlockDefinition.decoder (room + 2)) fun block =>
      Tidy (room + 1) (.object block.properties) := by
  let holds (parts : BlockParts) : Prop :=
    ∀ properties ∈ parts.properties, Tidy (room + 1) (.object properties)
  have fills : ∀ field ∈ knownFields, ∀ parts, holds parts →
      Yields (field.fill parts (room + 1)) holds := by
    simp only [knownFields, List.forall_mem_cons, List.not_mem_nil, false_implies, implies_true,
      and_true]
    refine ⟨fun parts has => .after fun _ => .pure has, fun parts has => .after fun _ => .pure has,
      fun parts has => .after fun _ => .pure has, fun parts has => ?_⟩
    refine (yields_map room).bind fun read tidy => .pure fun properties isRead => ?_
    exact Option.some.inj isRead ▸ tidy
  have made : ∀ parts block, holds parts → ofParts? parts = some block →
      Tidy (room + 1) (.object block.properties) := by
    intro parts block has isMade
    rw [properties_of_parts isMade]
    cases read : parts.properties with
    | none => exact tidy_empty room
    | some properties => exact has properties read
  have object : Yields (Decoder.object knownFields keepField {} ofParts? (room + 2)) fun block =>
      Tidy (room + 1) (.object block.properties) :=
    yields_object fills (fun parts key has => .after fun _ => .pure has)
      (fun properties isRead => by contradiction) made
  refine .after fun next => ?_
  cases next with
  | none => exact .throw .ended
  | some c => exact .ite (fun _ => object) fun _ => yields_mismatch

end BlockDefinition

namespace Document

/-- A document has the blocks that were read. -/
theorem blocks_of_parts {parts : DocumentParts} {document : Document}
    (made : ofParts? parts = some document) : parts.blocks = some document.blocks := by
  simp only [ofParts?, Option.bind_eq_bind, Option.bind_eq_some_iff, Option.pure_def,
    Option.some.injEq] at made
  obtain ⟨version, -, metadata, -, blocks, areBlocks, rfl⟩ := made
  exact areBlocks

/-- The properties of the blocks of a document that is read are tidy. -/
theorem tidy_of_read {text : String} {document : Document}
    (read : Document.read text = .ok document) :
    ∀ block ∈ document.blocks, Tidy (propertyRoom + 1) (.object block.properties) := by
  let holds (parts : DocumentParts) : Prop :=
    ∀ blocks ∈ parts.blocks, ∀ block ∈ blocks, Tidy (propertyRoom + 1) (.object block.properties)
  have fills : ∀ field ∈ knownFields, ∀ parts, holds parts →
      Yields (field.fill parts 126) holds := by
    simp only [knownFields, List.forall_mem_cons, List.not_mem_nil, false_implies, implies_true,
      and_true]
    refine ⟨fun parts has => .after fun _ => .pure has, fun parts has => .after fun _ => .pure has,
      fun parts has => ?_, fun parts has => .after fun _ => .pure has,
      fun parts has => .after fun _ => .pure has⟩
    have blocks := yields_list (BlockDefinition.yields_decoder propertyRoom)
    refine blocks.bind fun read tidy => .pure fun blocks isRead => ?_
    exact Option.some.inj isRead ▸ tidy
  have yields : Yields (Document.decoder documentRoom) fun document => ∀ block ∈ document.blocks,
      Tidy (propertyRoom + 1) (.object block.properties) := by
    refine yields_record fills (fun blocks isRead => by contradiction) ?_
    intro parts document has made
    exact has document.blocks (blocks_of_parts made)
  obtain ⟨⟨given, rest⟩, decoded, ends⟩ := bind_eq_ok.mp read
  have same : given = document := by
    dsimp only at ends
    split at ends
    · exact Except.ok.inj ends
    · contradiction
  exact same ▸ yields _ _ _ decoded

/-- The keys of all maps among the properties of blocks ascend. -/
def isOrdered (document : Document) : Bool :=
  document.blocks.all fun block => (Json.object block.properties).every keysAscend

/-- The properties of blocks hold only whole numbers that fit into 64 bits, signed or not. -/
def hasWholeNumbers (document : Document) : Bool :=
  document.blocks.all fun block => (Json.object block.properties).every isWhole

/-- The properties of a document that is not nested too deep are tidy. -/
theorem tidy_of_depth {document : Document} (ordered : document.isOrdered = true)
    (fits : document.toJson.depth ≤ documentRoom) :
    ∀ block ∈ document.blocks, Tidy (propertyRoom + 1) (.object block.properties) := by
  intro block member
  refine ⟨List.all_eq_true.mp ordered block member, ?_⟩
  have list : (Json.array (document.blocks.map BlockDefinition.toJson)).depth ≤ 126 :=
    depthOfFields_le_iff.mp (Nat.le_of_succ_le_succ fits) ("blocks", _) (by simp)
  have one : block.toJson.depth ≤ 125 :=
    depthOfElements_le_iff.mp (Nat.le_of_succ_le_succ list) _ (List.mem_map_of_mem member)
  exact depthOfFields_le_iff.mp (Nat.le_of_succ_le_succ one) ("properties", _) (by simp)

/-- A document is the same after it is saved and loaded. This holds for all documents whose keys
ascend and whose numbers are whole, if their text is nested no deeper than 127 levels, and for every
document with such numbers that was loaded from a text, whatever the text looks like. -/
theorem read_write :
    (∀ document : Document, document.isOrdered = true → document.hasWholeNumbers = true →
      document.toJson.depth ≤ 127 → Document.read document.write = .ok document) ∧
    (∀ (text : String) (document : Document), Document.read text = .ok document →
      document.hasWholeNumbers = true → Document.read document.write = .ok document) := by
  constructor
  · intro document ordered whole fits
    exact read_write_of_tidy (tidy_of_depth ordered fits) (List.all_eq_true.mp whole)
  · intro text document read whole
    exact read_write_of_tidy (tidy_of_read read) (List.all_eq_true.mp whole)

end Document

namespace Sample

/-- A document with nested properties, a negative number and a text that needs escapes. -/
def kept : Document where
  version := "1"
  metadata := ⟨"a\"\n\x01", none, some "é"⟩
  blocks := [⟨"x", .snippet "c", none, some "y",
    [("a", .array [.object [], .null]), ("b", .number (.integer (-12)))]⟩]
  connections := [⟨none, ⟨"x", "o"⟩, ⟨"x", "i"⟩⟩]
  material := none

/-- A text with an array for the document and a number for the type of a block. -/
def positional : String :=
  "[\"1\",[\"n\"],[\x7b\"properties\":\x7b\"b\":7,\"a\":[\x7b\x7d]\x7d," ++
    "\"code\":\"c\",\"id\":\"x\",\"type\":0\x7d]]"

end Sample

/-- A document is loaded as it was saved, and so is one that was loaded from an array. -/
theorem Document.read_write_sample :
    (Sample.kept.isOrdered = true ∧ Sample.kept.hasWholeNumbers = true ∧
        Sample.kept.toJson.depth ≤ 127 ∧ Document.read Sample.kept.write = .ok Sample.kept) ∧
      ∃ document, Document.read Sample.positional = .ok document ∧
        document.hasWholeNumbers = true ∧ Document.read document.write = .ok document := by
  constructor
  · have ordered : Sample.kept.isOrdered = true := by decide
    have whole : Sample.kept.hasWholeNumbers = true := by decide
    have fits : Sample.kept.toJson.depth ≤ 127 := by decide
    exact ⟨ordered, whole, fits, read_write.1 Sample.kept ordered whole fits⟩
  · have accepted : (Document.read Sample.positional).toOption.any hasWholeNumbers = true := by
      decide +kernel
    cases loaded : Document.read Sample.positional with
    | error fault =>
      rw [loaded] at accepted
      contradiction
    | ok document =>
      rw [loaded] at accepted
      exact ⟨document, rfl, accepted, read_write.2 _ document loaded accepted⟩

end ShaderBlocks
