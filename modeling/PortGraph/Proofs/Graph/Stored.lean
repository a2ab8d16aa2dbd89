import Mathlib.Data.List.Induction
import PortGraph.Graph.Definition
import PortGraph.Proofs.Json.Records

/-!
Stored definitions. The text of a definition spells one object for each record, and reading it gives
the definition back just when each double among its properties is read back from its own text. That
holds of every definition that was read and of every definition that was put together and nests no
deeper than documents may.
-/

namespace PortGraph

open Number Source

/-! ### What the text spells -/

namespace Definition

theorem spells_writeMembers {members : List (String × List Char)}
    {fields : List (Option String × Source)} (h : List.Forall₂ SpellsField members fields) :
    Spells (writeMembers members) (.object fields) :=
  spells_object h

theorem spells_writeList {α : Type} {write : α → List Char} {source : α → Source}
    (h : ∀ a, Spells (write a) (source a)) (as : List α) :
    Spells (writeList (as.map write)) (.array (as.map source)) := by
  refine spells_list ?_
  rw [List.forall₂_map_left_iff, List.forall₂_map_right_iff]
  exact List.forall₂_same.mpr fun a _ => h a

end Definition

namespace PortRef

def written (p : PortRef) : Source :=
  .object [(some "node", .string (some p.node)), (some "port", .string (some p.port))]

theorem spells_written (p : PortRef) : Spells (Definition.writePort p) p.written :=
  Definition.spells_writeMembers
    (.cons ⟨rfl, spells_quoted _⟩ (.cons ⟨rfl, spells_quoted _⟩ .nil))

theorem reader_written {r : Reading} (h : r.depth < depthLimit) (p : PortRef) :
    reader r p.written = .ok p := by
  unfold reader written
  rw [Record.reader_object h]
  simp [Record.checkFields, check_bind_eq_ok, Record.lookup, Reader.text]

end PortRef

namespace Link

def written (l : Link) : Source :=
  .object [(some "from", l.source.written), (some "to", l.target.written)]

theorem spells_written (l : Link) : Spells (Definition.writeLink l) l.written :=
  Definition.spells_writeMembers
    (.cons ⟨rfl, l.source.spells_written⟩ (.cons ⟨rfl, l.target.spells_written⟩ .nil))

theorem reader_written {r : Reading} (h : r.depth + 1 < depthLimit) (l : Link) :
    reader r l.written = .ok l := by
  unfold reader written
  rw [Record.reader_object (by omega)]
  have hport : ∀ p : PortRef, PortRef.reader ⟨r.origin, r.depth + 1⟩ p.written = .ok p :=
    PortRef.reader_written h
  simp [Record.checkFields, check_bind_eq_ok, Record.lookup, hport]

end Link

namespace NodeDefinition

def written (n : NodeDefinition) : Source :=
  .object [(some "id", .string (some n.id)), (some "type", .string (some n.tag)),
    (some "properties", Source.written (.object n.properties))]

theorem spells_written (n : NodeDefinition) : Spells (Definition.writeNode n) n.written :=
  Definition.spells_writeMembers
    (.cons ⟨rfl, spells_quoted _⟩ (.cons ⟨rfl, spells_quoted _⟩
      (.cons ⟨rfl, spells_write _⟩ .nil)))

theorem reader_written {r : Reading} (h : r.depth < depthLimit) (n : NodeDefinition) :
    reader r n.written = .ok n ↔
      Reader.any ⟨r.origin, r.depth + 1⟩ (Source.written (.object n.properties)) =
        .ok (.object n.properties) := by
  obtain ⟨id, tag, properties⟩ := n
  unfold reader written
  rw [Record.reader_object h, ← Reader.fields_eq_ok]
  constructor
  · rintro ⟨-, hbuild⟩
    simpa [Record.lookup, Reader.text] using hbuild
  · intro hread
    simp [Record.checkFields, check_bind_eq_ok, Record.lookup, Reader.text, hread]

end NodeDefinition

namespace Definition

def written (d : Definition) : Source :=
  .object [(some "nodes", .array (d.nodes.map NodeDefinition.written)),
    (some "edges", .array (d.links.map Link.written))]

theorem spells_written (d : Definition) : Spells d.write d.written :=
  spells_writeMembers
    (.cons ⟨rfl, spells_writeList NodeDefinition.spells_written _⟩
      (.cons ⟨rfl, spells_writeList Link.spells_written _⟩ .nil))

theorem reader_written {r : Reading} (h : r.depth + 3 < depthLimit) (d : Definition) :
    reader r d.written = .ok d ↔
      ∀ n ∈ d.nodes, NodeDefinition.reader ⟨r.origin, r.depth + 2⟩ n.written = .ok n := by
  obtain ⟨nodes, links⟩ := d
  have hlinks : Reader.list Link.reader ⟨r.origin, r.depth + 1⟩ (.array (links.map Link.written)) =
      .ok links := by
    rw [Reader.list, Reading.enter_eq_ok (by simp only; omega), ok_bind, Reader.listItems_map]
    exact fun l _ => Link.reader_written (by simp only; omega) l
  have hnodes : Reader.list NodeDefinition.reader ⟨r.origin, r.depth + 1⟩
      (.array (nodes.map NodeDefinition.written)) =
        Reader.listItems NodeDefinition.reader ⟨r.origin, r.depth + 2⟩
          (nodes.map NodeDefinition.written) := by
    rw [Reader.list, Reading.enter_eq_ok (by simp only; omega), ok_bind]
  unfold reader written
  rw [Record.reader_object (by omega), ← Reader.listItems_map]
  constructor
  · rintro ⟨-, hbuild⟩
    simpa [Record.lookup, hlinks, hnodes] using hbuild
  · intro hread
    simp [Record.checkFields, check_bind_eq_ok, Record.lookup, hlinks, hnodes, hread]

end Definition

/-! ### Documents that can be stored -/

/-- The properties can stand where documents have them, three levels deep. -/
structure NodeDefinition.Storable (n : NodeDefinition) : Prop where
  regular : (Json.object n.properties).Regular
  depth : 3 + (Json.object n.properties).depth ≤ depthLimit

namespace Definition

/-- The numbers among the properties of the nodes. -/
def numbers (d : Definition) : List Number :=
  d.nodes.flatMap fun n => (Json.object n.properties).numbers

theorem ofText_toText_iff {d : Definition} (h : ∀ n ∈ d.nodes, n.Storable) :
    ofText d.toText = .ok d ↔ ∀ x, .double x ∈ d.numbers → x.ReadsBack := by
  have hread : ofText d.toText = .ok d ↔ reader ⟨.text, 0⟩ d.written = .ok d := by
    unfold ofText Reader.readText toText
    rw [d.spells_written.ofText]
    simp [bind_eq_ok, pure, Except.pure]
  have hnode : ∀ n ∈ d.nodes, NodeDefinition.reader ⟨.text, 2⟩ n.written = .ok n ↔
      ∀ x, .double x ∈ (Json.object n.properties).numbers → x.ReadsBack := by
    intro n hn
    have hstorable := h n hn
    rw [NodeDefinition.reader_written (by decide), Reader.any_written ⟨.text, 3⟩
      hstorable.regular.tabled hstorable.depth, hstorable.regular.ranged.reread_iff]
  rw [hread, reader_written (by decide), forall₂_congr hnode]
  simp only [numbers, List.mem_flatMap]
  grind

end Definition

/-! ### Definitions that were read -/

theorem NodeDefinition.storable_of_reader {s : Source} {n : NodeDefinition}
    (hs : Ranged s.numbers) (h : NodeDefinition.reader ⟨.text, 2⟩ s = .ok n) : n.Storable := by
  obtain ⟨r, get, henter, hnode, hparts⟩ := Record.build_of_reader h
  obtain ⟨horigin, hdepth, -⟩ := Reading.of_enter henter
  obtain ⟨_, properties, htag, hproperties, rfl⟩ := Record.build_seq.mp hnode
  obtain ⟨_, tag, hid, -, rfl⟩ := Record.build_seq.mp htag
  obtain ⟨id, -, rfl⟩ := Record.build_map.mp hid
  rcases Record.build_fieldOr.mp hproperties with ⟨-, rfl⟩ | ⟨v, hv, hread⟩
  · exact ⟨⟨⟨List.Pairwise.nil, trivial⟩, ranged_nil⟩,
      (by decide : 3 + (Json.object []).depth ≤ depthLimit)⟩
  · have hadmitted := Reader.any_admitted (Reader.fields_eq_ok.mp hread)
    have hbound := hadmitted.depth horigin (by rw [hdepth]; decide)
    rw [hdepth] at hbound
    exact ⟨⟨hadmitted.tabled, fun i hi => hs i (hparts _ v hv (hadmitted.numbers hi))⟩, hbound⟩

theorem Definition.storable_of_ofText {text : String} {d : Definition} (h : ofText text = .ok d) :
    ∀ n ∈ d.nodes, n.Storable := by
  obtain ⟨_, hread, hended⟩ := ok_of_bind h
  split_ifs at hended
  obtain rfl := Except.ok.inj hended
  obtain ⟨r, get, henter, hbuild, hparts⟩ := Record.build_of_reader hread
  obtain ⟨horigin, hdepth, -⟩ := Reading.of_enter henter
  obtain ⟨_, links, hmap, -, rfl⟩ := Record.build_seq.mp hbuild
  obtain ⟨nodes, hfield, rfl⟩ := Record.build_map.mp hmap
  obtain ⟨v, hv, hlist⟩ := Record.build_field.mp hfield
  obtain ⟨r', henter', hnodes⟩ := Reader.of_list hlist
  obtain ⟨horigin', hdepth', -⟩ := Reading.of_enter henter'
  intro n hn
  obtain ⟨w, hw, hnode⟩ := hnodes n hn
  obtain rfl : r' = ⟨.text, 2⟩ := by
    obtain ⟨origin, depth⟩ := r'
    simp_all
  refine NodeDefinition.storable_of_reader (fun i hi => ?_) hnode
  exact ranged_ofText text i (hparts _ v hv (hw hi))

/-! ### Definitions that were put together -/

namespace Json

theorem depth_lt_record {entries : List (String × Json)} (h : (entries.map (·.1)).Nodup)
    {e : String × Json} (he : e ∈ entries) : e.2.depth < (record entries).depth := by
  have hfound : Table.find? (Table.ofEntries entries) e.1 = some e.2 := by
    rw [Table.find?_ofEntries entries h, Table.find?_of_mem h he]
  rw [record, depth, Nat.lt_succ_iff]
  exact depthFields_le_iff.mp le_rfl e (Table.mem_of_find? hfound)

theorem depth_lt_array {items : List Json} {v : Json} (h : v ∈ items) :
    v.depth < (array items).depth := by
  rw [depth, Nat.lt_succ_iff]
  exact depthItems_le_iff.mp le_rfl v h

end Json

/-- The properties of a node are three levels deep in the document. -/
theorem Definition.depth_properties {d : Definition} {n : NodeDefinition} (h : n ∈ d.nodes) :
    3 + (Json.object n.properties).depth ≤ d.toJson.depth := by
  have hproperties : (Json.object n.properties).depth < n.toJson.depth :=
    Json.depth_lt_record (e := ("properties", _)) (by simp) (by simp)
  have hnode : n.toJson.depth < (Json.array (d.nodes.map NodeDefinition.toJson)).depth :=
    Json.depth_lt_array (List.mem_map_of_mem h)
  have hnodes : (Json.array (d.nodes.map NodeDefinition.toJson)).depth < d.toJson.depth :=
    Json.depth_lt_record (e := ("nodes", _)) (by simp) (by simp)
  omega

/-- A node without properties, and what becomes of it as properties are set to values. -/
inductive NodeDefinition.Assembled : NodeDefinition → Prop
  | new (id : NodeId) (tag : String) : Assembled ⟨id, tag, []⟩
  | withProperty {n : NodeDefinition} (h : Assembled n) (name : String) {v : Json}
      (hv : v.Regular) : Assembled (n.withProperty name v)

/-- The empty definition, and what becomes of it as nodes and links are added. -/
inductive Definition.Assembled : Definition → Prop
  | empty : Assembled empty
  | withNode {d : Definition} (h : Assembled d) {n : NodeDefinition} (hn : n.Assembled) :
      Assembled (d.withNode n)
  | withLink {d : Definition} (h : Assembled d) (l : Link) : Assembled (d.withLink l)

namespace Json

theorem regular_insert {t : Table Json} (ht : (object t).Regular) (name : String) {v : Json}
    (hv : v.Regular) : (object (t.insert name v)).Regular where
  tabled := by
    refine ⟨Table.ordered_insert ht.tabled.1 name v, tabledFields_iff.mpr fun e he => ?_⟩
    rcases Table.mem_insert he with rfl | he
    · exact hv.tabled
    · exact tabledFields_iff.mp ht.tabled.2 e he
  ranged i hi := by
    obtain ⟨e, he, hi⟩ := mem_fieldNumbers.mp hi
    rcases Table.mem_insert he with rfl | he
    · exact hv.ranged i hi
    · exact ht.ranged i (mem_fieldNumbers.mpr ⟨e, he, hi⟩)

theorem regular_append_singleton {t : Table Json} {e : String × Json} :
    (object (t ++ [e])).Regular ↔
      (object t).Regular ∧ e.2.Regular ∧ ∀ a ∈ t, a.1 < e.1 := by
  constructor
  · intro h
    obtain ⟨hordered, hall⟩ := h.tabled
    obtain ⟨ht, -, hlast⟩ := List.pairwise_append.mp hordered
    have hfields := tabledFields_iff.mp hall
    refine ⟨⟨⟨ht, tabledFields_iff.mpr fun a ha => hfields a (by simp [ha])⟩, fun i hi => ?_⟩,
      ⟨hfields e (by simp), fun i hi => ?_⟩, fun a ha => hlast a ha e (by simp)⟩
    · obtain ⟨a, ha, hi⟩ := mem_fieldNumbers.mp hi
      exact h.ranged i (mem_fieldNumbers.mpr ⟨a, by simp [ha], hi⟩)
    · exact h.ranged i (mem_fieldNumbers.mpr ⟨e, by simp, hi⟩)
  · rintro ⟨ht, he, hlast⟩
    rw [← Table.insert_of_forall_lt hlast]
    exact regular_insert ht e.1 he

end Json

/-- Setting properties gives all tables of values in memory. -/
theorem NodeDefinition.assembled_iff {n : NodeDefinition} :
    n.Assembled ↔ (Json.object n.properties).Regular := by
  constructor
  · intro h
    induction h with
    | new id tag => exact ⟨⟨List.Pairwise.nil, trivial⟩, ranged_nil⟩
    | withProperty _ name hv ih => exact Json.regular_insert ih name hv
  · obtain ⟨id, tag, properties⟩ := n
    -- The last property is the one that was set last.
    induction properties using List.reverseRecOn with
    | nil => exact fun _ => .new id tag
    | append_singleton t e ih =>
      intro h
      obtain ⟨ht, he, hlast⟩ := Json.regular_append_singleton.mp h
      have hset := (ih ht).withProperty e.1 he
      rwa [NodeDefinition.withProperty, Table.insert_of_forall_lt hlast] at hset

theorem Definition.Assembled.regular {d : Definition} (h : d.Assembled) :
    ∀ n ∈ d.nodes, (Json.object n.properties).Regular := by
  induction h with
  | empty => exact fun n hn => absurd hn List.not_mem_nil
  | withNode _ hn ih =>
    intro n hmem
    rcases List.mem_append.mp hmem with hmem | hmem
    · exact ih n hmem
    · rw [List.mem_singleton.mp hmem]
      exact NodeDefinition.assembled_iff.mp hn
  | withLink _ l ih => exact ih

theorem Definition.Assembled.storable {d : Definition} (h : d.Assembled)
    (hdepth : d.toJson.depth ≤ depthLimit) : ∀ n ∈ d.nodes, n.Storable :=
  fun n hn => ⟨h.regular n hn, (depth_properties hn).trans hdepth⟩

namespace Definition

/-- The text of a definition that was read, or that was put together and nests no deeper than
documents may, is read as that definition, provided that the doubles among its properties are read
back from their texts, and otherwise not. The condition is on the doubles that are there, because
not all doubles meet it. -/
theorem storedRoundTrips :
    (∀ text d, ofText text = .ok d →
      (ofText d.toText = .ok d ↔ ∀ x, .double x ∈ d.numbers → x.ReadsBack)) ∧
    ∀ d : Definition, d.Assembled → d.toJson.depth ≤ depthLimit →
      (ofText d.toText = .ok d ↔ ∀ x, .double x ∈ d.numbers → x.ReadsBack) :=
  ⟨fun _ _ h => ofText_toText_iff (storable_of_ofText h),
    fun _ h hdepth => ofText_toText_iff (h.storable hdepth)⟩

/-- A text with a node in the form of an array, a property that is given twice, an unknown member
and no links. -/
def terse : String :=
  "\x7b\"nodes\": [[\"a\", \"data-input\", " ++
    "\x7b\"x\": 0.25, \"x\": [1.5, \x7b\"k\": \"\\u00e9\\n\"\x7d]\x7d], " ++
    "\x7b\"type\": \"data-output\", \"id\": \"b\", \"position\": [18446744073709551615]\x7d]\x7d"

/-- What `terse` stands for, put together. -/
def ofTerse : Definition :=
  (empty.withNode (NodeDefinition.withProperty ⟨"a", "data-input", []⟩ "x"
    (.array [.number (.double ⟨false, 6755399441055744, -52⟩), .object [("k", .string "é\n")]])))
  |>.withNode ⟨"b", "data-output", []⟩

def terseLink : Link := ⟨⟨"a", "value"⟩, ⟨"b", "data"⟩⟩

theorem terse_storedRoundTrips :
    (ofText terse = .ok ofTerse ∧ ofText ofTerse.toText = .ok ofTerse) ∧
      (ofTerse.withLink terseLink).Assembled ∧
      (ofTerse.withLink terseLink).toJson.depth ≤ depthLimit ∧
      ofText (ofTerse.withLink terseLink).toText = .ok (ofTerse.withLink terseLink) := by
  have hread : ofText terse = .ok ofTerse := by decide +kernel
  have hdoubles : ∀ x, .double x ∈ ofTerse.numbers → x.ReadsBack := by
    intro x hx
    obtain rfl : x = ⟨false, 6755399441055744, -52⟩ := by
      simpa [ofTerse, numbers, withNode, empty, NodeDefinition.withProperty, Table.insert,
        Json.numbers, Json.itemNumbers, Json.fieldNumbers] using hx
    unfold Binary64.ReadsBack
    decide +kernel
  have hassembled : (ofTerse.withLink terseLink).Assembled := by
    refine .withLink (.withNode (.withNode .empty (.withProperty (.new _ _) _ ⟨?_, ?_⟩))
      (.new _ _)) _
    · simp [Json.Tabled, Json.TabledItems, Json.TabledFields, Table.Ordered]
    · simp [Ranged, Json.numbers, Json.itemNumbers, Json.fieldNumbers]
  have hdepth : (ofTerse.withLink terseLink).toJson.depth ≤ depthLimit := by decide +kernel
  exact ⟨⟨hread, (storedRoundTrips.1 terse ofTerse hread).mpr hdoubles⟩, hassembled, hdepth,
    (storedRoundTrips.2 (ofTerse.withLink terseLink) hassembled hdepth).mpr hdoubles⟩

end Definition

end PortGraph
