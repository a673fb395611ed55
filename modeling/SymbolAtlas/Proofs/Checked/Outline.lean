/-
# SymbolAtlas.Proofs.Checked.Outline -- every identifier of a file becomes one node

Each way of adding nodes builds a part of the file (`outlined_identifier`, `outlined_declare`,
`outlined_names`, `outlined_import`), and so does the outline of each phrase
(`outlined_outline`), by induction on the syntax.
-/
import SymbolAtlas.Proofs.Checked.Mentions

set_option autoImplicit false

namespace SymbolAtlas.Checked

variable {b : Base} {f : LoadedFile} {m m' m'' : Memory} (claimed : List Nat)
  {ms ms' : List Mention} {ns ns' : List Node} {parent : NodeId}

/-! ## Single nodes -/

theorem addContainer_eq (f : LoadedFile) (parent : NodeId) (kind : NodeKind) (extent : Extent)
    (m : Memory) :
    addContainer f parent kind extent m =
      let n : Node := { id := m.next, kind, file := f.path, span := f.span extent
                        fullSpan := f.span extent, parent := some parent }
      (n, { m with nodes := m.nodes.push { node := n } }) := rfl

/-- What is no identifier and names nothing may be added below a node, or as a root. -/
theorem outlined_push (sound : m.Sound b) {n : Node} (other : n.kind ≠ .identifier)
    (own : n.id = m.next) (file : n.file = f.path) (parent : ∀ p, n.parent = some p → m.Has p)
    (unnamed : n.nameNode = none) :
    let m' : Memory := { m with nodes := m.nodes.push { node := n } }
    Outlined b f [] claimed m [n] m' ∧ m'.Has n.id := by
  intro m'
  have there : m'.Has n.id := own ▸ m.has_next_push _
  refine ⟨⟨sound.push parent unnamed rfl, m.grows_push _, fun n' member => ?_,
    fun n' member kind => ?_, by simp⟩, there⟩
  · obtain rfl := List.mem_singleton.1 member
    refine ⟨own ▸ m.not_has_next, there, ?_, file⟩
    rw [own, m.node_next_push]
  · obtain rfl := List.mem_singleton.1 member
    exact absurd kind other

theorem outlined_container (sound : m.Sound b) (has : m.Has parent) {kind : NodeKind}
    (other : kind ≠ .identifier) (extent : Extent) :
    let r := addContainer f parent kind extent m
    Outlined b f [] claimed m [r.1] r.2 ∧ r.2.Has r.1.id := by
  intro r
  rw [show r = _ from addContainer_eq f parent kind extent m]
  exact outlined_push claimed sound other rfl rfl (by rintro _ ⟨⟩; exact has) rfl

/-- An identifier on its own gets a node that names nothing. -/
theorem outlined_addIdentifier (sound : m.Sound b) (has : m.Has parent) (i : Identifier) :
    let r := addIdentifier f parent i m
    Outlined b f [.loose i] claimed m [r.1] r.2 := by
  intro r
  have pushed : r.2.Sound b := sound.push (n := ⟨r.1, some i, none, none, none, none, ""⟩)
    (by rintro _ ⟨⟩; exact has) rfl rfl
  have grows : m.Grows r.2 := m.grows_push _
  have own : r.2.node r.1.id = { node := r.1, identifier := some i } := m.node_next_push _
  refine ⟨pushed, grows, fun n member => ?_, fun n member _ => ?_, fun j member _ _ => ?_⟩
  · obtain rfl := List.mem_singleton.1 member
    exact ⟨m.not_has_next, m.has_next_push _, congrArg (·.node) own, rfl⟩
  · obtain rfl := List.mem_singleton.1 member
    exact ⟨_, List.mem_cons_self, rfl, congrArg (·.identifier) own⟩
  · obtain rfl := Mention.loose.inj (List.mem_singleton.1 member)
    refine ⟨r.1, List.mem_cons_self, rfl, rfl, congrArg (·.identifier) own, ?_⟩
    rintro ⟨p, up, named⟩
    obtain rfl : parent = p := Option.some.inj ((congrArg (·.node.parent) own).symm.trans up)
    rw [grows.node has] at named
    exact m.not_has_next ((sound.nodes parent has).name _ named).1

/-! ## Declarations -/

/-- The node of a declaration in a file. -/
def declarationNode (f : LoadedFile) (parent : NodeId) (kind : NodeKind) (name : String)
    (mark extent : Extent) (redeclarable : Bool) (m : Memory) : Node :=
  { id := m.next, kind, name, file := f.path, span := f.span mark, fullSpan := f.span extent
    parent := some parent, nameNode := some m.nextName, redeclarable }

/-- The node of the name of a declaration in a file. -/
def declaredName (f : LoadedFile) (name : String) (mark : Extent) (m : Memory) : Node :=
  { id := m.nextName, kind := .identifier, name, file := f.path, span := f.span mark
    fullSpan := f.span mark, parent := some m.next }

/-- The memory with a declaration whose name is mentioned. -/
def Memory.declared (m : Memory) (d : Declared) (x : Mention) (entity : Option EntityId)
    (doc : String) : Memory :=
  m.pair { node := d.declaration, entity, doc } { node := d.name, identifier := x.identifier? }

theorem addDeclaration_eq (f : LoadedFile) (parent : NodeId) (kind : NodeKind) (i : Identifier)
    (extent : Extent) (entity : Option EntityId) (doc : String) (redeclarable : Bool) (m : Memory) :
    addDeclaration f parent kind i extent entity doc redeclarable m =
      let d : Declared := ⟨declarationNode f parent kind i.name i.extent extent redeclarable m,
        declaredName f i.name i.extent m⟩
      (d, m.declared d (.name i) entity doc) := by
  simp only [addDeclaration, addIdentifier, addNode, ask_bind, ask_get, ask_set, ask_pure,
    declarationNode, declaredName, Memory.declared, Memory.pair, Memory.next, Memory.nextName,
    Array.size_push, Mention.identifier?]

/-- The nodes of a declaration and its name. -/
def Declared.nodes (d : Declared) : List Node := [d.declaration, d.name]

theorem Declared.nodesOf_tree (d : Declared) (inside : List Tree) :
    Tree.nodesOf [d.tree inside] = d.nodes ++ Tree.nodesOf inside := by
  simp [Declared.tree, Declared.nodes, Tree.nodesOf, Tree.nodes]

/-- A declaration and its name are in a memory. -/
structure Declared.Stands (d : Declared) (f : LoadedFile) (x : Mention) (m : Memory) : Prop where
  has : m.Has d.declaration.id
  names : m.Names d.name.id
  identifier : (m.node d.name.id).identifier = x.identifier?
  marks : m.Marks d.declaration.id f.path (f.source.offsetPosition x.extent.start)

theorem Declared.Stands.grow {d : Declared} {x : Mention} (h : d.Stands f x m)
    (grows : m.Grows m') : d.Stands f x m' where
  has := grows.has h.has
  names := grows.names h.names
  identifier := by
    obtain ⟨p, up, -⟩ := h.names
    exact (grows.identifier (m.has_of_parent up)).trans h.identifier
  marks := grows.marks h.marks

/-- A declaration is added together with its name. -/
theorem outlined_declared (sound : m.Sound b) (has : m.Has parent) {kind : NodeKind}
    (other : kind ≠ .identifier) {x : Mention} (given : ∀ i, x ≠ .loose i) (name : String)
    (extent : Extent) (redeclarable : Bool) (entity : Option EntityId) (doc : String) :
    let d : Declared := ⟨declarationNode f parent kind name x.extent extent redeclarable m,
      declaredName f name x.extent m⟩
    Outlined b f [x] claimed m d.nodes (m.declared d x entity doc) ∧
      d.Stands f x (m.declared d x entity doc) := by
  intro d
  have there : (m.declared d x entity doc).Has m.next := Memory.has_pair.2 (.inr (.inl rfl))
  have there' : (m.declared d x entity doc).Has m.nextName := Memory.has_pair.2 (.inr (.inr rfl))
  have own : (m.declared d x entity doc).node m.next = { node := d.declaration, entity, doc } :=
    m.node_pair_next _ _
  have own' : (m.declared d x entity doc).node m.nextName =
      { node := d.name, identifier := x.identifier? } := m.node_pair_nextName _ _
  have sound' : (m.declared d x entity doc).Sound b := by
    refine sound.pair ?_ rfl rfl rfl rfl rfl (by simp)
    rintro _ ⟨⟩
    exact has
  refine ⟨⟨sound', m.grows_pair _ _, fun n member => ?_, fun n member kind => ?_,
    fun i member => ?_⟩, there, ⟨m.next, ?_, ?_⟩, ?_, m.nextName, there', ?_, ?_, ?_⟩
  · rcases List.mem_cons.1 member with rfl | last
    · exact ⟨m.not_has_next, there, congrArg (·.node) own, rfl⟩
    · obtain rfl := List.mem_singleton.1 last
      exact ⟨m.not_has_nextName, there', congrArg (·.node) own', rfl⟩
  · rcases List.mem_cons.1 member with rfl | last
    · exact absurd kind other
    · obtain rfl := List.mem_singleton.1 last
      exact ⟨x, List.mem_cons_self, rfl, congrArg (·.identifier) own'⟩
  · exact absurd (List.mem_singleton.1 member).symm (given i)
  · exact congrArg (·.node.parent) own'
  · exact congrArg (·.node.nameNode) own
  · exact congrArg (·.identifier) own'
  · exact congrArg (·.node.nameNode) own
  · exact congrArg (·.node.file) own'
  · exact congrArg (·.node.span.start) own'

theorem outlined_addDeclaration (sound : m.Sound b) (has : m.Has parent) {kind : NodeKind}
    (other : kind ≠ .identifier) (i : Identifier) (extent : Extent) (entity : Option EntityId)
    (doc : String) (redeclarable : Bool) :
    let r := addDeclaration f parent kind i extent entity doc redeclarable m
    Outlined b f [.name i] claimed m r.1.nodes r.2 ∧ r.1.Stands f (.name i) r.2 := by
  intro r
  rw [show r = _ from addDeclaration_eq f parent kind i extent entity doc redeclarable m]
  exact outlined_declared claimed sound has other (by simp) i.name extent redeclarable entity doc

/-- A declaration is found where the start of its name is reported. -/
theorem outlined_registerDeclaration (source : f.source = b.source f.path) (sound : m.Sound b)
    {offset : Nat} {id : NodeId} (marks : m.Marks id f.path (f.source.offsetPosition offset)) :
    Outlined b f [] claimed m [] (registerDeclaration b f.path offset id m).2 := by
  refine .nothing { sound with
    nodes := sound.fits_of_nodes rfl, declarations := fun file offset' id' here => ?_ }
    (.of_nodes rfl)
  have found : (m.declarations.insertIfNew (b.reportedFile f.path offset, offset) id).get?
      (file, offset') = some id' := here
  unfold Table.insertIfNew at found
  split at found
  · exact sound.declarations file offset' id' found
  · rw [Table.get?_insert] at found
    split at found
    · rename_i same
      obtain ⟨rfl, rfl⟩ := Prod.mk.inj same
      obtain rfl := Option.some.inj found
      exact ⟨f.path, rfl, source ▸ marks⟩
    · exact sound.declarations file offset' id' found

theorem outlined_declare (source : f.source = b.source f.path) (sound : m.Sound b)
    (has : m.Has parent) {kind : NodeKind} (other : kind ≠ .identifier) (i : Identifier)
    (extent : Extent) (entity : Option EntityId) (doc : String) (redeclarable : Bool) :
    let r := declare b f parent kind i extent entity doc redeclarable m
    Outlined b f [.name i] claimed m r.1.nodes r.2 ∧ r.1.Stands f (.name i) r.2 := by
  intro r
  obtain ⟨added, stands⟩ := outlined_addDeclaration claimed sound has other i extent entity doc
    redeclarable
  have registered := outlined_registerDeclaration claimed source added.sound stands.marks
  exact ⟨added.append registered, stands.grow registered.grows⟩

/-- A name may get a symbol of its own. -/
theorem outlined_presetSymbol (sound : m.Sound b) {name : Node} {s : Symbol}
    (presets : m.Presets b name.id s) :
    Outlined b f [] claimed m [] (presetSymbol name s m).2 := by
  refine .nothing (sound.modify (fun _ => rfl) (fun _ => rfl) fun s' own => ?_)
    (m.grows_modify name.id (fun _ => rfl) fun _ => rfl)
  obtain rfl := Option.some.inj own
  exact .inr presets

/-- Where nodes are and stay, whatever else is noted. -/
theorem outlined_of_answers {α : Type} {q : Asking α} {Q : α → Memory → Prop}
    (answers : Answers b m q Q) : Outlined b f [] claimed m [] (q m).2 :=
  .nothing answers.told.sound answers.told.grows

/-! ## Parts of a file -/

theorem nodeKind_ne_identifier (e : Entity) (inSignature : Bool) :
    e.nodeKind inSignature ≠ .identifier := by
  unfold Entity.nodeKind
  split
  all_goals first | (split <;> simp) | simp

/-- An identifier on its own has a node, unless it is claimed. -/
theorem outlined_identifier (source : f.source = b.source f.path) (sound : m.Sound b)
    (has : m.Has parent) (inSignature : Bool) (i : Identifier) :
    Outlines b f [.loose i] claimed m (outlineIdentifier b f claimed parent inSignature i) := by
  unfold Outlines outlineIdentifier
  by_cases known : claimed.contains i.mark = true
  · rw [if_pos known]
    refine ⟨sound, .refl m, by simp [Tree.nodesOf],
      by simp [Tree.nodesOf], fun j member unclaimed _ => ?_⟩
    obtain rfl := Mention.loose.inj (List.mem_singleton.1 member)
    exact absurd (List.contains_iff_mem.1 known) unclaimed.1
  · rw [if_neg known]
    cases declared : i.definition with
    | none => exact outlined_addIdentifier claimed sound has i
    | some d =>
        obtain ⟨whole, -⟩ := outlined_declare claimed source sound has
          (nodeKind_ne_identifier (b.facts.entity d) inSignature) i i.extent (some d) ""
          (isBlankName i.name)
        refine ⟨whole.sound, whole.grows, whole.nodes, fun n member kind => ?_,
          fun j member _ bare => ?_⟩
        · obtain ⟨x, given, rest⟩ := whole.stands n member kind
          obtain rfl := List.mem_singleton.1 given
          exact ⟨.loose i, List.mem_cons_self, rest⟩
        · obtain rfl := Mention.loose.inj (List.mem_singleton.1 member)
          simp [declared] at bare

theorem nodesOf_append (first second : List Tree) :
    Tree.nodesOf (first ++ second) = Tree.nodesOf first ++ Tree.nodesOf second := by
  induction first with
  | nil => rfl
  | cons t rest ih => rw [List.cons_append, Tree.nodesOf, Tree.nodesOf, ih, List.append_assoc]

theorem nodesOf_node (n : Node) (inside : List Tree) :
    Tree.nodesOf [.node n inside] = [n] ++ Tree.nodesOf inside := by
  simp [Tree.nodesOf, Tree.nodes]

theorem nodesOf_trees (declared : List Declared) :
    Tree.nodesOf (declared.map (·.tree [])) = declared.flatMap Declared.nodes := by
  induction declared with
  | nil => rfl
  | cons d rest ih =>
      rw [List.map_cons, Tree.nodesOf, ih, List.flatMap_cons]
      rfl

/-- A container holds a part of a file. -/
theorem outlined_contained (sound : m.Sound b) (has : m.Has parent) {kind : NodeKind}
    (other : kind ≠ .identifier) (extent : Extent) {inside : NodeId → Asking (List Tree)}
    (outlines : OutlinesBelow b f ms claimed inside) :
    Outlines b f ms claimed m do
      let n ← addContainer f parent kind extent
      return [.node n (← inside n.id)] := by
  obtain ⟨container, there⟩ := outlined_container claimed (f := f) sound has other extent
  have behind := outlines _ _ container.sound there
  exact (container.append behind).of_eq (nodesOf_node _ _)

/-- A declaration holds a part of a file. -/
theorem outlined_declaring (source : f.source = b.source f.path) (sound : m.Sound b)
    (has : m.Has parent) {kind : NodeKind} (other : kind ≠ .identifier) (i : Identifier)
    (extent : Extent) (doc : String) {inside : NodeId → Asking (List Tree)}
    (outlines : OutlinesBelow b f ms claimed inside) :
    Outlines b f (.name i :: ms) claimed m do
      let d ← declare b f parent kind i extent i.definition doc
      return [d.tree (← inside d.declaration.id)] := by
  obtain ⟨declared, stands⟩ := outlined_declare claimed source sound has other i extent
    i.definition doc (isBlankName i.name)
  have behind := outlines _ _ declared.sound stands.has
  exact (declared.append behind).of_eq (Declared.nodesOf_tree _ _)

/-- Names that share what stands behind them are declared one after the other. -/
theorem outlined_declareEach (source : f.source = b.source f.path) (sound : m.Sound b)
    (has : m.Has parent) {kind : NodeKind} (other : kind ≠ .identifier) (extent : Extent)
    (doc : String) (names : List Identifier) :
    let r := names.mapM (fun i => declare b f parent kind i extent i.definition doc) m
    Outlined b f (names.map .name) claimed m (r.1.flatMap Declared.nodes) r.2 := by
  induction names generalizing m with
  | nil => exact .nothing sound (.refl m)
  | cons i rest ih =>
      obtain ⟨first, -⟩ := outlined_declare claimed source sound has other i extent i.definition doc
        (isBlankName i.name)
      have later := ih first.sound (first.grows.has has)
      rw [List.mapM_cons]
      exact first.append later

/-- What stands behind names is outlined below the one name, or beside them. -/
theorem outlined_names (source : f.source = b.source f.path) (sound : m.Sound b)
    (has : m.Has parent) {kind : NodeKind} (other : kind ≠ .identifier) (extent : Extent)
    (doc : String) (names : List Identifier) {inside : NodeId → Asking (List Tree)}
    (outlines : OutlinesBelow b f ms claimed inside) :
    Outlines b f (names.map .name ++ ms) claimed m
      (outlineNames b f parent kind extent doc names inside) := by
  match names with
  | [] => exact outlines parent m sound has
  | [i] => exact outlined_declaring claimed source sound has other i extent doc outlines
  | i :: j :: rest =>
      obtain ⟨grouped, there⟩ := outlined_container claimed (f := f) sound has
        (show NodeKind.group ≠ .identifier by decide) extent
      have declared := outlined_declareEach claimed source grouped.sound there other extent doc
        (i :: j :: rest)
      have behind := outlines _ _ declared.sound (declared.grows.has there)
      refine ((grouped.append declared).append behind).of_eq ?_
      refine (nodesOf_node _ _).trans ?_
      rw [nodesOf_append, nodesOf_trees]
      exact (List.append_assoc _ _ _).symm

/-- What stands for an import gets the symbol of its entity, if the checker recorded no
declaration there. -/
theorem outlined_presetEntity (sound : m.Sound b) {d : Declared} {x : Mention}
    (stands : d.Stands f x m) (bare : x.identifier?.bind Identifier.definition = none)
    (e : EntityId) :
    Outlined b f [] claimed m []
      (presetSymbol d.name (symbolFor b e m).1 (symbolFor b e m).2).2 := by
  have answer := answers_symbolFor sound e
  have asked := outlined_of_answers (f := f) claimed answer
  have stands := stands.grow asked.grows
  have presets : (symbolFor b e m).2.Presets b d.name.id (symbolFor b e m).1 :=
    ⟨stands.names, answer.2.1, fun _ _ _ => stands.identifier ▸ bare⟩
  exact asked.append (outlined_presetSymbol claimed asked.sound presets)

/-- An import without a name of its own is declared at its path. -/
theorem outlineImport_eq (b : Base) (f : LoadedFile) (parent : NodeId) {i : Import}
    (unnamed : i.name = none) (m : Memory) :
    outlineImport b f parent i m =
      let d : Declared := ⟨declarationNode f parent .importSpec (i.impliedName b) i.path i.extent
        false m, declaredName f (i.impliedName b) i.path m⟩
      let m₁ := m.declared d (.path i.path) i.implicit ""
      let m₂ := match i.implicit with
        | some e => (presetSymbol d.name (symbolFor b e m₁).1 (symbolFor b e m₁).2).2
        | none => m₁
      ([d.tree []], (registerDeclaration b f.path i.path.start d.declaration.id m₂).2) := by
  unfold outlineImport
  rw [unnamed]
  simp only [addNode, ask_bind, ask_get, ask_set, ask_pure, declarationNode, declaredName,
    Memory.declared, Memory.pair, Memory.next, Memory.nextName, Array.size_push,
    Mention.identifier?]
  cases i.implicit <;> rfl

/-- The name of an import, or its path, has a node. -/
theorem outlined_import (source : f.source = b.source f.path) (sound : m.Sound b)
    (has : m.Has parent) (i : Import) :
    Outlines b f [i.mention] claimed m (outlineImport b f parent i) := by
  have other : NodeKind.importSpec ≠ .identifier := by decide
  unfold Outlines Import.mention
  cases named : i.name with
  | some name =>
      obtain ⟨declared, stands⟩ := outlined_declare claimed source sound has other name i.extent
        (name.definition.or i.implicit) "" (isBlankName name.name)
      unfold outlineImport
      rw [named]
      dsimp only
      cases bare : name.definition with
      | some d =>
          rw [bare] at declared
          exact declared
      | none =>
          rw [bare] at declared stands
          cases implicit : i.implicit with
          | none =>
              rw [implicit] at declared
              exact declared
          | some e =>
              rw [implicit] at declared stands
              exact declared.append (outlined_presetEntity claimed declared.sound stands bare e)
  | none =>
      obtain ⟨declared, stands⟩ := outlined_declared claimed sound has other (x := .path i.path)
        (by simp) (i.impliedName b) i.extent false i.implicit ""
      rw [outlineImport_eq b f parent named]
      dsimp only
      cases implicit : i.implicit with
      | none =>
          rw [implicit] at declared stands
          have registered := outlined_registerDeclaration claimed source declared.sound stands.marks
          exact declared.append registered
      | some e =>
          rw [implicit] at declared stands
          have preset := outlined_presetEntity claimed declared.sound stands rfl e
          have registered := outlined_registerDeclaration claimed source preset.sound
            (preset.grows.marks stands.marks)
          exact (declared.append preset).append registered

/-- The guard of a type switch is declared as a variable. -/
theorem outlined_guard (source : f.source = b.source f.path) (sound : m.Sound b)
    (has : m.Has parent) (guard : Option (Identifier × Extent)) :
    let r := outlineGuard b f parent guard m
    Outlined b f (guard.toList.map (.name ·.1)) claimed m
        (Tree.nodesOf (r.1.map (·.tree [])).toList) r.2 ∧
      ∀ d ∈ r.1, ∃ x, d.Stands f x r.2 := by
  match guard with
  | none => exact ⟨.nothing sound (.refl m), by simp [outlineGuard]⟩
  | some (i, assignment) =>
      obtain ⟨declared, stands⟩ := outlined_declare claimed source sound has
        (show NodeKind.variable ≠ .identifier by decide) i assignment none "" (isBlankName i.name)
      refine ⟨declared.of_eq ?_, ?_⟩
      · exact (Declared.nodesOf_tree _ _).trans (List.append_nil _)
      · rintro d ⟨⟩
        exact ⟨_, stands⟩

/-- The name of a guard gets a symbol that stands for the variables of the clauses. -/
theorem outlined_presetGuard (sound : m.Sound b) {d : Declared} {x : Mention}
    (stands : d.Stands f x m) (package : PackageId) (name : String) (place : Place)
    (members : List EntityId) :
    let r := guardSymbol b package name place d.declaration.id members m
    Outlined b f [] claimed m [] (presetSymbol d.name r.1 r.2).2 := by
  intro r
  have means : b.Means r.1 (.guard d.declaration.id members) := ⟨_, _, _, rfl⟩
  have known : r.2.Sound b := sound.insert_symbol means fun id others same =>
    (Meaning.guard.inj same).1 ▸ stands.has
  have grows : m.Grows r.2 := .of_nodes rfl
  have presets : r.2.Presets b d.name.id r.1 := ⟨grows.names stands.names, ⟨_, means⟩,
    fun e clause same => absurd same.symm (entityKey_ne_guardKey b e clause _ _ _)⟩
  exact (Outlined.nothing known grows).append (outlined_presetSymbol claimed known presets)

theorem outlined_bindGuard (sound : m.Sound b) {guard : Option Declared}
    (stands : ∀ d ∈ guard, ∃ x, d.Stands f x m) (start : Nat) (body : Phrase) :
    Outlined b f [] claimed m [] (bindGuard b f guard start body m).2 := by
  have counted (cases : Table EntityId Nat) : Outlined b f [] claimed m [] { m with cases } :=
    .nothing { sound with nodes := sound.fits_of_nodes rfl } (.of_nodes rfl)
  unfold bindGuard
  cases guard with
  | none => exact counted _
  | some d =>
      obtain ⟨x, here⟩ := stands d rfl
      have first := counted (body.clauseVariables.foldl
        (fun cases entry => cases.insert entry.1 entry.2) m.cases)
      exact first.append (outlined_presetGuard claimed first.sound (here.grow first.grows) ..)

/-! ## Phrases -/

/-- One part of a file is built after the other. -/
theorem outlined_append {first second : NodeId → Asking (List Tree)}
    (outlines : OutlinesBelow b f ms claimed first)
    (next : OutlinesBelow b f ms' claimed second) :
    OutlinesBelow b f (ms ++ ms') claimed fun id => do
      let left ← first id
      return left ++ (← second id) := by
  intro id m sound has
  have before := outlines id m sound has
  exact (before.append (next id _ before.sound (before.grows.has has))).of_eq (nodesOf_append _ _)

/-- The guard of a type switch is declared before its subject, and bound to the variables of the
clauses behind it. -/
theorem outlined_typeSwitch (source : f.source = b.source f.path) (sound : m.Sound b)
    (has : m.Has parent) (extent : Extent) (guard : Option (Identifier × Extent)) (body : Phrase)
    {before between behind : NodeId → Asking (List Tree)} {ms₁ ms₂ ms₃ : List Mention}
    (init : OutlinesBelow b f ms₁ claimed before)
    (subject : OutlinesBelow b f ms₂ claimed between)
    (clauses : OutlinesBelow b f ms₃ claimed behind) :
    Outlines b f (ms₁ ++ guard.toList.map (.name ·.1) ++ ms₂ ++ ms₃) claimed m do
      let n ← addContainer f parent .block extent
      let start ← before n.id
      let declared ← outlineGuard b f n.id guard
      let subjects ← between n.id
      bindGuard b f declared ((guard.map (·.1.extent.start)).getD 0) body
      let rest ← behind n.id
      return [.node n (start ++ (declared.map (·.tree [])).toList ++ subjects ++ rest)] := by
  obtain ⟨container, there⟩ := outlined_container claimed (f := f) sound has
    (show NodeKind.block ≠ .identifier by decide) extent
  have start := init _ _ container.sound there
  have there := start.grows.has there
  obtain ⟨declared, stands⟩ := outlined_guard claimed source start.sound there guard
  have there := declared.grows.has there
  have subjects := subject _ _ declared.sound there
  have there := subjects.grows.has there
  have bound := outlined_bindGuard claimed subjects.sound
    (fun d member => (stands d member).imp fun _ h => h.grow subjects.grows)
    ((guard.map (·.1.extent.start)).getD 0) body
  have rest := clauses _ _ bound.sound (bound.grows.has there)
  have all := ((((container.append start).append declared).append subjects).append bound).append rest
  simp only [List.append_nil, List.nil_append] at all
  have same (n : Node) (start subjects rest : List Tree) (declared : Option Declared) :
      Tree.nodesOf [.node n (start ++ (declared.map (·.tree [])).toList ++ subjects ++ rest)] =
        [n] ++ Tree.nodesOf start ++ Tree.nodesOf (declared.map (·.tree [])).toList ++
          Tree.nodesOf subjects ++ Tree.nodesOf rest := by
    simp only [nodesOf_node, nodesOf_append, List.append_assoc]
  exact all.of_eq (same ..)

/-- A function is declared and something is noted about it; its signature stands between its type
parameters and its body. -/
theorem outlined_function (source : f.source = b.source f.path) (sound : m.Sound b)
    (has : m.Has parent) {kind : NodeKind} (other : kind ≠ .identifier) (name : Identifier)
    (extent signatureExtent : Extent) (doc : String) (redeclarable : Bool)
    {note : Declared → Asking Unit}
    (noted : ∀ d m, m.Sound b → Outlined b f [] claimed m [] (note d m).2)
    {before between behind : NodeId → Asking (List Tree)} {ms₁ ms₂ ms₃ : List Mention}
    (parameters : OutlinesBelow b f ms₁ claimed before)
    (signature : OutlinesBelow b f ms₂ claimed between)
    (body : OutlinesBelow b f ms₃ claimed behind) :
    Outlines b f ([.name name] ++ ms₁ ++ ms₂ ++ ms₃) claimed m do
      let d ← declare b f parent kind name extent name.definition doc redeclarable
      note d
      let parameters ← before d.declaration.id
      let n ← addContainer f d.declaration.id .signature signatureExtent
      let inside ← between n.id
      let rest ← behind d.declaration.id
      return [d.tree (parameters ++ .node n inside :: rest)] := by
  obtain ⟨declared, stands⟩ := outlined_declare claimed source sound has other name extent
    name.definition doc redeclarable
  have noted := noted (declare b f parent kind name extent name.definition doc redeclarable m).1
    _ declared.sound
  have there := noted.grows.has stands.has
  have parameters := parameters _ _ noted.sound there
  have there := parameters.grows.has there
  have container := outlined_contained claimed parameters.sound there
    (show NodeKind.signature ≠ .identifier by decide) signatureExtent signature
  have rest := body _ _ container.sound (container.grows.has there)
  have all := (((declared.append noted).append parameters).append container).append rest
  refine all.of_eq ((Declared.nodesOf_tree _ _).trans ?_)
  rw [nodesOf_append, List.append_nil, List.append_assoc, List.append_assoc]
  refine congrArg _ (congrArg _ ?_)
  exact nodesOf_append [_] _

mutual

/-- **The outline of a phrase builds what the phrase mentions.** -/
theorem outlined_outline (source : f.source = b.source f.path) (claimed : List Nat)
    (inSignature : Bool) (p : Phrase) :
    OutlinesBelow b f p.mentions claimed fun id => outline b f claimed id inSignature p := by
  intro parent m sound has
  dsimp only
  match p with
  | .identifier i =>
      rw [Phrase.mentions, outline]
      exact outlined_identifier claimed source sound has inSignature i
  | .selector operand name =>
      have named : OutlinesBelow b f [.loose name] claimed fun id =>
          outlineIdentifier b f claimed id inSignature name := fun _ _ sound' has' =>
        outlined_identifier claimed source sound' has' inSignature name
      rw [Phrase.mentions, outline]
      exact outlined_append claimed (outlined_outline source claimed inSignature operand) named
        parent m sound has
  | .wrapped operand arguments =>
      rw [Phrase.mentions, outline]
      exact outlined_append claimed (outlined_outline source claimed inSignature operand)
        (outlined_outlineAll source claimed inSignature arguments) parent m sound has
  | .sequence parts =>
      rw [Phrase.mentions, outline]
      exact outlined_outlineAll source claimed inSignature parts parent m sound has
  | .signature extent parts =>
      rw [Phrase.mentions, outline]
      exact outlined_contained claimed sound has (by decide) extent
        (outlined_outlineAll source claimed true parts)
  | .scope extent _ parts =>
      rw [Phrase.mentions, outline]
      exact outlined_contained claimed sound has (by decide) extent
        (outlined_outlineAll source claimed false parts)
  | .typeSwitch extent init guard subject body =>
      have whole := outlined_typeSwitch claimed source sound has extent guard body
        (outlined_outlineAll source claimed false init)
        (outlined_outlineAll source claimed false subject)
        (outlined_outline source claimed false body)
      rw [Phrase.mentions, outline]
      exact whole
  | .structType extent fields =>
      rw [Phrase.mentions, outline]
      exact outlined_contained claimed sound has (by decide) extent
        (outlined_outlineFields source claimed fields)
  | .interfaceType extent elements =>
      rw [Phrase.mentions, outline]
      exact outlined_contained claimed sound has (by decide) extent
        (outlined_outlineElements source claimed elements)
  | .declarations extent doc specs =>
      rw [Phrase.mentions, outline]
      exact outlined_contained claimed sound has (by decide) extent
        (outlined_outlineSpecs source claimed _ specs)
  | .function extent doc name isMethod typeParameters signatureExtent signature body =>
      have whole {kind : NodeKind} (other : kind ≠ .identifier) (redeclarable : Bool)
          (note : Declared → Asking Unit)
          (noted : ∀ d m, m.Sound b → Outlined b f [] claimed m [] (note d m).2) :=
        outlined_function claimed source sound has other name extent signatureExtent doc redeclarable
          noted (outlined_outlineAll source claimed false typeParameters)
          (outlined_outlineAll source claimed true signature)
          (outlined_outlineAll source claimed false body)
      rw [Phrase.mentions, outline]
      cases isMethod with
      | false =>
          exact whole (by decide) _ (fun _ => pure ()) fun _ m' sound' => .nothing sound' (.refl m')
      | true =>
          exact whole (by decide) _ (fun d => modifyNode d.declaration.id _) fun d _ sound' =>
            outlined_of_answers claimed (answers_modifyNode sound' _
              (fun _ => rfl) (fun _ => rfl) fun _ => rfl)

theorem outlined_outlineAll (source : f.source = b.source f.path) (claimed : List Nat)
    (inSignature : Bool) (ps : List Phrase) :
    OutlinesBelow b f (mentionsAll ps) claimed fun id => outlineAll b f claimed id inSignature ps := by
  intro parent m sound has
  dsimp only
  match ps with
  | [] =>
      rw [mentionsAll, outlineAll]
      exact .nothing sound (.refl m)
  | p :: rest =>
      rw [mentionsAll, outlineAll]
      exact outlined_append claimed (outlined_outline source claimed inSignature p)
        (outlined_outlineAll source claimed inSignature rest) parent m sound has

theorem outlined_outlineFields (source : f.source = b.source f.path) (claimed : List Nat)
    (fields : List Field) :
    OutlinesBelow b f (mentionsOfFields fields) claimed fun id =>
      outlineFields b f claimed id fields := by
  intro parent m sound has
  dsimp only
  match fields with
  | [] =>
      rw [mentionsOfFields, outlineFields]
      exact .nothing sound (.refl m)
  | .mk extent doc names type :: rest =>
      have other : NodeKind.field ≠ .identifier := by decide
      have next := outlined_outlineFields source claimed rest
      rw [mentionsOfFields]
      by_cases embedded : ∃ i, names = [] ∧ type.embeddedName? = some i
      · obtain ⟨i, rfl, named⟩ := embedded
        have field : OutlinesBelow b f (.name i :: type.mentions) claimed fun id => do
            let d ← declare b f id .field i extent i.definition doc
            return [d.tree (← outline b f (i.mark :: claimed) d.declaration.id false type)] :=
          fun _ _ sound' has' => (outlined_declaring (i.mark :: claimed) source sound' has' other i
            extent doc (outlined_outline source (i.mark :: claimed) false type)).unclaim
            List.mem_cons_self
        rw [fieldNames.eq_1 _ _ named, outlineFields.eq_2 _ _ _ _ _ _ _ _ _ named]
        exact outlined_append claimed field next parent m sound has
      · have plain (i : Identifier) (none : names = []) (named : type.embeddedName? = some i) :
            False := embedded ⟨i, none, named⟩
        have field : OutlinesBelow b f (names.map .name ++ type.mentions) claimed fun id =>
            outlineNames b f id .field extent doc names fun id => outline b f claimed id false
            type :=
          fun _ _ sound' has' => outlined_names claimed source sound' has' other extent doc names
            (outlined_outline source claimed false type)
        rw [fieldNames.eq_2 _ _ plain, outlineFields.eq_3 _ _ _ _ _ _ _ _ _ plain]
        exact outlined_append claimed field next parent m sound has

theorem outlined_outlineElements (source : f.source = b.source f.path) (claimed : List Nat)
    (elements : List Element) :
    OutlinesBelow b f (mentionsOfElements elements) claimed fun id =>
      outlineElements b f claimed id elements := by
  intro parent m sound has
  dsimp only
  match elements with
  | [] =>
      rw [mentionsOfElements, outlineElements]
      exact .nothing sound (.refl m)
  | .mk extent doc none type :: rest =>
      rw [mentionsOfElements, outlineElements]
      exact outlined_append claimed (outlined_outline source claimed false type)
        (outlined_outlineElements source claimed rest) parent m sound has
  | .mk extent doc (some i) type :: rest =>
      have method : OutlinesBelow b f (.name i :: type.mentions) claimed fun id => do
          let d ← declare b f id .interfaceMethod i extent i.definition doc
          return [d.tree (← outline b f claimed d.declaration.id false type)] :=
        fun _ _ sound' has' => outlined_declaring claimed source sound' has' (by decide) i extent
          doc (outlined_outline source claimed false type)
      rw [mentionsOfElements, outlineElements]
      exact outlined_append claimed method (outlined_outlineElements source claimed rest)
        parent m sound has

theorem outlined_outlineSpecs (source : f.source = b.source f.path) (claimed : List Nat)
    (shared : String) (specs : List Spec) :
    OutlinesBelow b f (mentionsOfSpecs specs) claimed fun id =>
      outlineSpecs b f claimed id shared specs := by
  intro parent m sound has
  dsimp only
  match specs with
  | [] =>
      rw [mentionsOfSpecs, outlineSpecs]
      exact .nothing sound (.refl m)
  | .imported i :: rest =>
      have import_ : OutlinesBelow b f [i.mention] claimed fun id => outlineImport b f id i :=
        fun _ _ sound' has' => outlined_import claimed source sound' has' i
      rw [mentionsOfSpecs, outlineSpecs]
      exact outlined_append claimed import_ (outlined_outlineSpecs source claimed shared rest)
        parent m sound has
  | .type extent doc name parameters type :: rest =>
      have inside := outlined_append claimed (outlined_outlineAll source claimed false parameters)
        (outlined_outline source claimed false type)
      have declared : OutlinesBelow b f (.name name :: (mentionsAll parameters ++ type.mentions))
          claimed _ := fun _ _ sound' has' => outlined_declaring claimed source sound' has'
        (show NodeKind.typeDecl ≠ .identifier by decide) name extent (firstDoc doc shared) inside
      rw [mentionsOfSpecs, outlineSpecs]
      exact outlined_append claimed declared (outlined_outlineSpecs source claimed shared rest)
        parent m sound has
  | .value isConstant extent doc names parts :: rest =>
      have other : (if isConstant then .constant else .variable : NodeKind) ≠ .identifier := by
        cases isConstant <;> decide
      have values : OutlinesBelow b f (names.map .name ++ mentionsAll parts) claimed fun id =>
          outlineNames b f id (if isConstant then .constant else .variable) extent
            (firstDoc doc shared) names fun id => outlineAll b f claimed id false parts :=
        fun _ _ sound' has' => outlined_names claimed source sound' has' other extent _ names
          (outlined_outlineAll source claimed false parts)
      rw [mentionsOfSpecs, outlineSpecs]
      exact outlined_append claimed values (outlined_outlineSpecs source claimed shared rest)
        parent m sound has

end

/-! ## Files -/

/-- A package clause may be added to the clauses of a package. -/
theorem outlined_insertClause (sound : m.Sound b) {id : NodeId} (has : m.Has id) (path : String) :
    Outlined b f [] claimed m []
      { m with clauses := m.clauses.insert path ((m.clauses.get? path).getD [] ++ [id]) } := by
  refine .nothing { sound with
    nodes := sound.fits_of_nodes rfl, clauses := fun other ids here d member => ?_ } (.of_nodes rfl)
  rw [Table.get?_insert] at here
  split at here
  · obtain rfl := Option.some.inj here
    rcases List.mem_append.1 member with old | last
    · cases known : m.clauses.get? path with
      | none => simp [known] at old
      | some ids =>
          rw [known] at old
          exact sound.clauses path ids known d old
    · exact List.mem_singleton.1 last ▸ has
  · exact sound.clauses other ids here d member

/-- The root of the tree of a file. -/
def rootNode (f : LoadedFile) (m : Memory) : Node :=
  let span : Text.Span := ⟨{}, f.source.offsetPosition f.source.bytes.length⟩
  { id := m.next, kind := .file, name := f.path, file := f.path, span, fullSpan := span }

/-- **The outline of a file builds what the file mentions.** -/
theorem outlined_outlineFile (source : f.source = b.source f.path) (sound : m.Sound b) :
    let r := outlineFile b f m
    Outlined b f f.parsed.mentions [] m r.1.nodes r.2 ∧ r.1.root.file = f.path := by
  intro r
  obtain ⟨root, there⟩ := outlined_push [] (f := f) sound (n := rootNode f m) (by simp [rootNode])
    rfl rfl (by simp [rootNode]) rfl
  obtain ⟨clause, stands⟩ := outlined_addDeclaration [] (f := f) root.sound there
    (show NodeKind.package ≠ .identifier by decide) f.parsed.name f.parsed.extent none f.parsed.doc
    (isBlankName f.parsed.name.name)
  have answer := answers_packageSymbol clause.sound f.package
  have asked := outlined_of_answers (f := f) [] answer
  have stands := stands.grow asked.grows
  have preset := outlined_presetSymbol (f := f) [] asked.sound ⟨stands.names, answer.2.1,
    fun e clause same => absurd (same.symm.trans answer.2.2) (entityKey_ne_packageKey b e clause _)⟩
  have stands := stands.grow preset.grows
  have noted := outlined_insertClause (f := f) [] preset.sound stands.has
    (b.facts.package f.package).path
  have before := (((root.append clause).append asked).append preset).append noted
  have inside := outlined_outlineAll source [] false f.parsed.declarations _ _ noted.sound
    (noted.grows.has (preset.grows.has (asked.grows.has (clause.grows.has there))))
  have all := before.append inside
  simp only [List.append_nil, List.nil_append] at all
  have same (d : Declared) (ts : List Tree) :
      (Tree.node (rootNode f m) (d.tree [] :: ts)).nodes =
        [rootNode f m] ++ d.nodes ++ Tree.nodesOf ts := by
    simp [Tree.nodes, Tree.nodesOf, Declared.tree, Declared.nodes]
  exact ⟨all.of_eq (same ..), rfl⟩

end SymbolAtlas.Checked
