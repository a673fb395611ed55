/-
# SymbolAtlas.Proofs.Checked.Answers -- what a checked program answers

A question to a checked program may add symbols, and nodes for declarations outside the loaded
files.  It leaves the memory sound, and it changes nothing that is there (`Memory.Told`).  What
it answers is said next to that (`Answers`): a symbol has the key of its entity
(`answers_symbolFor`), and a declaration is marked where an entity with the key of its symbol is
declared (`answers_declarationsOf`).
-/
import SymbolAtlas.Proofs.Checked.Memory
import SymbolAtlas.Proofs.Session.Questions

set_option autoImplicit false

namespace SymbolAtlas.Checked

variable {b : Base} {m m' m'' : Memory} {α β : Type}

/-! ## Asking -/

@[simp] theorem ask_pure (a : α) (m : Memory) : (pure a : Asking α) m = (a, m) := rfl

@[simp] theorem ask_bind (q : Asking α) (k : α → Asking β) (m : Memory) :
    (q >>= k) m = k (q m).1 (q m).2 := rfl

@[simp] theorem ask_get (m : Memory) : (get : Asking Memory) m = (m, m) := rfl

@[simp] theorem ask_set (m m' : Memory) : (set m' : Asking PUnit) m = ((), m') := rfl

@[simp] theorem ask_modify (f : Memory → Memory) (m : Memory) :
    (modify f : Asking Unit) m = ((), f m) := rfl

/-- The memory after a question. -/
structure Memory.Told (b : Base) (m m' : Memory) : Prop where
  sound : m'.Sound b
  grows : m.Grows m'
  cases : m'.cases = m.cases
  /-- A symbol that was asked for is known by its key ever after. -/
  symbols : ∀ {key known}, m.symbols.get? key = some known → m'.symbols.get? key = some known

theorem Memory.Told.refl (sound : m.Sound b) : m.Told b m := ⟨sound, .refl m, rfl, fun here => here⟩

theorem Memory.Told.trans (first : m.Told b m') (second : m'.Told b m'') : m.Told b m'' :=
  ⟨second.sound, first.grows.trans second.grows, second.cases.trans first.cases,
    fun here => second.symbols (first.symbols here)⟩

/-- A question has an answer of which `Q` holds, and may be asked in this memory. -/
def Answers (b : Base) (m : Memory) (q : Asking α) (Q : α → Memory → Prop) : Prop :=
  m.Told b (q m).2 ∧ Q (q m).1 (q m).2

theorem Answers.told {q : Asking α} {Q : α → Memory → Prop} (h : Answers b m q Q) :
    m.Told b (q m).2 := h.1

theorem answers_pure (sound : m.Sound b) {a : α} {Q : α → Memory → Prop} (h : Q a m) :
    Answers b m (pure a) Q := ⟨.refl sound, h⟩

/-- One question after the other. -/
theorem Answers.bind {q : Asking α} {k : α → Asking β} {P : α → Memory → Prop}
    {Q : β → Memory → Prop} (first : Answers b m q P)
    (next : ∀ a m', m.Told b m' → P a m' → Answers b m' (k a) Q) : Answers b m (q >>= k) Q := by
  obtain ⟨told, answer⟩ := first
  obtain ⟨told', answer'⟩ := next _ _ told answer
  exact ⟨told.trans told', answer'⟩

/-- What is done with the memory itself. -/
theorem answers_get_bind {k : Memory → Asking β} {Q : β → Memory → Prop}
    (next : Answers b m (k m) Q) : Answers b m (get >>= k) Q := next

theorem answers_keyOf_bind {id : EntityId} {k : String → Asking β} {Q : β → Memory → Prop}
    (next : Answers b m (k (b.entityKey (b.facts.entity id) (m.cases.get? id))) Q) :
    Answers b m (keyOf b id >>= k) Q := next

theorem Answers.imp {q : Asking α} {P Q : α → Memory → Prop} (h : Answers b m q P)
    (weaker : ∀ a m', m.Told b m' → P a m' → Q a m') : Answers b m q Q :=
  ⟨h.1, weaker _ _ h.1 h.2⟩

theorem answers_listMapM {q : α → Asking β} {Q : β → Prop} {xs : List α} (sound : m.Sound b)
    (each : ∀ x m', m'.Sound b → Answers b m' (q x) fun y _ => Q y) :
    Answers b m (xs.mapM q) fun ys _ => ∀ y ∈ ys, Q y := by
  induction xs generalizing m with
  | nil => exact answers_pure sound (by simp)
  | cons x xs ih =>
      rw [List.mapM_cons]
      refine (each x m sound).bind fun y m₁ told first => ?_
      refine (ih told.sound).bind fun ys m₂ told' rest => ?_
      refine answers_pure told'.sound fun z member => ?_
      rcases List.mem_cons.1 member with rfl | later
      · exact first
      · exact rest z later

theorem answers_optionMapM {q : α → Asking β} {Q : β → Prop} {x : Option α} (sound : m.Sound b)
    (each : ∀ x m', m'.Sound b → Answers b m' (q x) fun y _ => Q y) :
    Answers b m (x.mapM q) fun y _ => ∀ z, y = some z → Q z := by
  cases x with
  | none => exact answers_pure sound (by simp)
  | some x =>
      refine (each x m sound).bind fun y m' told here => answers_pure told.sound ?_
      rintro _ ⟨⟩
      exact here

/-! ## Keys -/

theorem take_entityKey (b : Base) (e : Entity) (clause : Option Nat) :
    (b.entityKey e clause).toList.take 2 ∈ ["un", "pk", "co", "ty", "me", "fu", "fi", "va", "la",
      "bu", "ni", "ob"].map String.toList := by
  have tags : e.tag.toList.take 2 ∈ ["pk", "co", "ty", "me", "fu", "fi", "va", "la", "bu", "ni",
      "ob"].map String.toList ∧ 2 ≤ e.tag.toList.length := by
    unfold Entity.tag
    split <;> decide
  unfold Base.entityKey
  split
  · rw [String.toList_append, List.take_append_of_le_length (by decide)]
    decide
  · simp only [String.append_assoc, String.toList_append]
    rw [List.take_append_of_le_length tags.2]
    exact List.mem_cons_of_mem _ tags.1

/-- The keys of packages are no keys of entities. -/
theorem entityKey_ne_packageKey (b : Base) (e : Entity) (clause : Option Nat) (path : String) :
    b.entityKey e clause ≠ packageKey path := by
  intro same
  have first := take_entityKey b e clause
  rw [same, packageKey, String.toList_append, List.take_append_of_le_length (by decide)] at first
  revert first
  decide

/-- The keys of guards are no keys of entities. -/
theorem entityKey_ne_guardKey (b : Base) (e : Entity) (clause : Option Nat)
    (package name : String) (place : Place) :
    b.entityKey e clause ≠ guardKey package name place := by
  intro same
  have first := take_entityKey b e clause
  rw [same, guardKey] at first
  simp only [String.append_assoc] at first
  rw [String.toList_append, List.take_append_of_le_length (by decide)] at first
  revert first
  decide

/-! ## Symbols -/

theorem remember_eq (key name : String) (flags : SymbolFlags) (meaning : Meaning) (m : Memory) :
    remember key name flags meaning m =
      match m.symbols.get? key with
      | some known => (known.symbol, m)
      | none =>
          let symbol : Symbol := { handle := m.symbols.size, key, name, flags }
          (symbol, { m with symbols := m.symbols.insert key { symbol, meaning } }) := by
  simp only [remember, ask_bind, ask_get]
  cases m.symbols.get? key <;> rfl

/-- A symbol may be added to the symbols of a sound memory. -/
theorem Memory.Sound.insert_symbol (h : m.Sound b) {s : Symbol} {meaning : Meaning}
    (means : b.Means s meaning) (guards : ∀ d members, meaning = .guard d members → m.Has d) :
    Memory.Sound b { m with symbols := m.symbols.insert s.key ⟨s, meaning⟩ } where
  nodes := h.fits_of_nodes rfl
  symbols key known here := by
    rw [Table.get?_insert] at here
    split at here
    · rename_i own
      obtain rfl := Option.some.inj here
      exact ⟨own, means, guards⟩
    · exact h.symbols key known here
  declarations := h.declarations
  stubs := h.stubs
  clauses := h.clauses
  externals := h.externals

/-- A symbol that is asked for has the key that was asked for, and stands for something. -/
theorem answers_remember (sound : m.Sound b) {key name : String} {flags : SymbolFlags}
    {meaning : Meaning} (means : b.Means ⟨m.symbols.size, key, name, flags⟩ meaning)
    (free : ∀ d members, meaning ≠ .guard d members) :
    Answers b m (remember key name flags meaning) fun s _ => s.key = key ∧ b.Meant s := by
  unfold Answers
  rw [remember_eq]
  cases here : m.symbols.get? key with
  | some known =>
      obtain ⟨own, means, -⟩ := sound.symbols key known here
      exact ⟨.refl sound, own, _, means⟩
  | none =>
      refine ⟨⟨?_, .of_nodes rfl, rfl, fun {key' known} there => ?_⟩, rfl, _, means⟩
      · exact sound.insert_symbol means fun d members guard => absurd guard (free d members)
      · have other : key ≠ key' := by
          rintro rfl
          rw [here] at there
          cases there
        rwa [Table.get?_insert, if_neg other]

/-- The symbol of an entity has the key of its origin. -/
theorem answers_symbolFor (sound : m.Sound b) (id : EntityId) :
    Answers b m (symbolFor b id) fun s _ => b.Meant s ∧
      s.key = b.entityKey (b.facts.entity (b.facts.origin id))
        (m.cases.get? (b.facts.origin id)) := by
  have means : b.Means ⟨m.symbols.size, _, (b.facts.entity (b.facts.origin id)).name, _⟩
      (.entity (b.facts.origin id)) :=
    ⟨⟨id, rfl⟩, m.cases.get? (b.facts.origin id), rfl, rfl⟩
  obtain ⟨told, own, meant⟩ := answers_remember sound means (by simp)
  exact ⟨told, meant, own⟩

theorem answers_packageSymbol (sound : m.Sound b) (id : PackageId) :
    Answers b m (packageSymbol b id) fun s _ => b.Meant s ∧
      s.key = packageKey (b.facts.package id).path := by
  have means : b.Means ⟨m.symbols.size, packageKey (b.facts.package id).path,
      (b.facts.package id).name, { module := true }⟩ (.package id) := rfl
  exact (answers_remember sound means (by simp)).imp fun _ _ _ answer => answer.symm

/-- A question that leaves the nodes alone and does not depend on them. -/
structure Nodeless (q : Asking α) : Prop where
  kept : ∀ m, (q m).2.nodes = m.nodes
  push : ∀ (m : Memory) n, q { m with nodes := m.nodes.push n } =
    ((q m).1, { (q m).2 with nodes := (q m).2.nodes.push n })

theorem nodeless_remember (key name : String) (flags : SymbolFlags) (meaning : Meaning) :
    Nodeless (remember key name flags meaning) where
  kept m := by
    rw [remember_eq]
    split <;> rfl
  push m n := by
    rw [remember_eq, remember_eq]
    dsimp only
    split <;> rfl

theorem nodeless_symbolFor (b : Base) (id : EntityId) : Nodeless (symbolFor b id) where
  kept _ := (nodeless_remember ..).kept _
  push _ _ := (nodeless_remember ..).push _ _

/-! ## Declarations elsewhere -/

theorem externalFile_eq (b : Base) (path : String) (m : Memory) :
    externalFile b path m =
      match m.externals.get? path with
      | some f => (f, m)
      | none =>
          let f : ExternalFile := { source := b.source path, node := m.next }
          (f, { m with
            nodes := m.nodes.push
              { node := { id := m.next, kind := .file, name := path, file := path } }
            externals := m.externals.insert path f }) := by
  simp only [externalFile, ask_bind, ask_get]
  cases m.externals.get? path <;> rfl

/-- A file may be added to the files of a sound memory that were not loaded. -/
theorem Memory.Sound.insert_external (h : m.Sound b) {path : String} {f : ExternalFile}
    (has : m.Has f.node) (source : f.source = b.source path) :
    Memory.Sound b { m with externals := m.externals.insert path f } := by
  refine { h with nodes := h.fits_of_nodes rfl, externals := fun path' f' here => ?_ }
  rw [Table.get?_insert] at here
  split at here
  · rename_i same
    obtain rfl := Option.some.inj here
    exact ⟨has, same ▸ source⟩
  · exact h.externals path' f' here

/-- A stub may be added to the stubs of a sound memory. -/
theorem Memory.Sound.insert_stub (h : m.Sound b) {key : String} {id : NodeId} (has : m.Has id)
    (stub : (∃ path, key = packageKey path) ∨ m.Declares b key id) :
    Memory.Sound b { m with stubs := m.stubs.insert key id } := by
  refine { h with nodes := h.fits_of_nodes rfl, stubs := fun key' id' here => ?_ }
  rw [Table.get?_insert] at here
  split at here
  · rename_i same
    obtain rfl := Option.some.inj here
    exact ⟨has, same ▸ stub⟩
  · exact h.stubs key' id' here

theorem answers_externalFile (sound : m.Sound b) (path : String) :
    Answers b m (externalFile b path) fun f m' => m'.Has f.node ∧ f.source = b.source path := by
  unfold Answers
  rw [externalFile_eq]
  cases here : m.externals.get? path with
  | some f => exact ⟨.refl sound, sound.externals path f here⟩
  | none =>
      generalize node : ({ node := ⟨m.next, .file, path, path, {}, {}, none, none, false⟩ } :
        CheckedNode) = n
      have pushed : Memory.Sound b { m with nodes := m.nodes.push n } :=
        sound.push (by simp [← node]) (by simp [← node]) (by simp [← node])
      have grows := m.grows_push n
      have has := m.has_next_push n
      exact ⟨⟨pushed.insert_external (f := ⟨b.source path, m.next⟩) has rfl,
        ⟨grows.has, grows.node, grows.identifier⟩, rfl, fun here => here⟩, has, rfl⟩

/-- The declaration that stands for an entity outside the loaded files. -/
def stubNode (parent : NodeId) (kind : NodeKind) (name : String) (place : Place)
    (source : Text.Source)
    (entity : Option EntityId) (redeclarable : Bool) (m : Memory) : CheckedNode :=
  let span := source.nameSpan place.line place.column (Text.Utf8.encode name)
  { node := { id := m.next, kind, name, file := place.file, span, fullSpan := span
              parent := some parent, nameNode := some m.nextName, redeclarable }
    entity }

/-- The name of the declaration that stands for an entity outside the loaded files. -/
def stubName (name : String) (place : Place) (source : Text.Source) (symbol : Symbol) (m : Memory) :
    CheckedNode :=
  let span := source.nameSpan place.line place.column (Text.Utf8.encode name)
  { node := { id := m.nextName, kind := .identifier, name, file := place.file, span
              fullSpan := span, parent := some m.next }
    symbol := some symbol }

theorem addStub_eq (b : Base) (key : String) (kind : NodeKind) (name : String) (place : Place)
    (entity : Option EntityId) (redeclarable : Bool) {symbol : Asking Symbol}
    (nodeless : Nodeless symbol) (m : Memory) :
    addStub b key kind name place entity redeclarable symbol m =
      let f := (externalFile b place.file m).1
      let m₁ := (externalFile b place.file m).2
      let s := (symbol m₁).1
      let m₂ := (symbol m₁).2
      let m₃ := m₂.pair (stubNode f.node kind name place f.source entity redeclarable m₂)
        (stubName name place f.source s m₂)
      (m₂.next, { m₃ with stubs := m₃.stubs.insert key m₂.next }) := by
  unfold addStub addNode
  simp only [ask_bind, ask_get, ask_set, ask_modify, ask_pure]
  generalize externalFile b place.file m = answer
  obtain ⟨f, m₁⟩ := answer
  have still := nodeless.kept m₁
  dsimp only
  rw [nodeless.push]
  generalize symbol m₁ = answer at still ⊢
  obtain ⟨s, m₂⟩ := answer
  dsimp only at still ⊢
  simp only [Memory.pair, stubNode, stubName, Memory.next, Memory.nextName, still,
    Array.size_push]

/-- A stub is marked where its entity is declared. -/
theorem answers_addStub (sound : m.Sound b) {key : String} (kind : NodeKind) (name : String)
    {place : Place} (entity : Option EntityId) (redeclarable : Bool) {symbol : Asking Symbol}
    (nodeless : Nodeless symbol)
    (asked : ∀ m, m.Sound b → Answers b m symbol fun s _ => b.Meant s)
    (known : (∃ path, key = packageKey path) ∨ ∃ e clause,
      key = b.entityKey (b.facts.entity e) clause ∧
      b.declaredAt? (b.facts.entity e) = some place) :
    Answers b m (addStub b key kind name place entity redeclarable symbol) fun id m' =>
      m'.Has id ∧ ((∃ path, key = packageKey path) ∨ m'.Declares b key id) := by
  obtain ⟨told₁, has, source⟩ := answers_externalFile sound place.file
  obtain ⟨told₂, meant⟩ := asked _ told₁.sound
  unfold Answers
  rw [addStub_eq b key kind name place entity redeclarable nodeless]
  generalize externalFile b place.file m = answer at *
  obtain ⟨f, m₁⟩ := answer
  dsimp only at *
  generalize symbol m₁ = answer at *
  obtain ⟨s, m₂⟩ := answer
  dsimp only at *
  have told := told₁.trans told₂
  generalize declaration : stubNode f.node kind name place f.source entity redeclarable m₂ = d
  generalize named : stubName name place f.source s m₂ = x
  have grows := m₂.grows_pair d x
  have paired : (m₂.pair d x).Sound b := by
    subst declaration named
    refine told₂.sound.pair ?_ rfl rfl rfl rfl rfl ?_
    · rintro _ ⟨⟩
      exact told₂.grows.has has
    · rintro _ ⟨⟩
      exact ⟨meant, fun _ _ _ => rfl⟩
  have here : (m₂.pair d x).Has m₂.next := Memory.has_pair.2 (.inr (.inl rfl))
  have marks : (m₂.pair d x).Marks m₂.next place.file
      ((b.source place.file).columnPosition place.line place.column) := by
    refine ⟨m₂.nextName, Memory.has_pair.2 (.inr (.inr rfl)), ?_⟩
    rw [Memory.node_pair_next, Memory.node_pair_nextName]
    subst declaration named
    exact ⟨rfl, rfl, source ▸ rfl⟩
  have stub : (∃ path, key = packageKey path) ∨ (m₂.pair d x).Declares b key m₂.next :=
    known.imp_right fun ⟨e, clause, own, declared⟩ =>
      ⟨e, clause, place, _, _, own, declared, .own, marks⟩
  exact ⟨told.trans ⟨paired.insert_stub here stub, ⟨grows.has, grows.node, grows.identifier⟩,
    rfl, fun here => here⟩, here, stub⟩

theorem declaredAt?_of_stubPlace? {e : Entity} {place : Place}
    (found : b.stubPlace? e = some place) : b.declaredAt? e = some place := by
  have found := (Option.filter_eq_some_iff.1 found).1
  unfold Base.declaredAt?
  by_cases declared : e.isUniverse = true
  · rwa [if_pos declared] at found ⊢
  · rw [if_neg declared] at found ⊢
    obtain ⟨own, placed, rfl⟩ := Option.map_eq_some_iff.1 found
    rw [Base.placeOf, placed, Option.getD_some]

theorem bareStub_eq (b : Base) (id : EntityId) (m : Memory) :
    bareStub b id m =
      let key := b.entityKey (b.facts.entity id) (m.cases.get? id)
      let e := b.facts.entity id
      match m.stubs.get? key, b.stubPlace? e with
      | some stub, _ => (some stub, m)
      | none, none => (none, m)
      | none, some place =>
          let r := addStub b key (e.nodeKind false) e.name place (some id) (e.name = "_")
            (symbolFor b id) m
          (some r.1, r.2) := by
  simp only [bareStub, keyOf, ask_bind, ask_get, ask_pure]
  cases m.stubs.get? (b.entityKey (b.facts.entity id) (m.cases.get? id)) with
  | some stub => rfl
  | none => cases b.stubPlace? (b.facts.entity id) <;> rfl

theorem answers_bareStub (sound : m.Sound b) (id : EntityId) :
    Answers b m (bareStub b id) fun stub m' => ∀ d, stub = some d →
      m'.Declares b (b.entityKey (b.facts.entity id) (m.cases.get? id)) d := by
  unfold Answers
  rw [bareStub_eq]
  dsimp only
  generalize keyed : b.entityKey (b.facts.entity id) (m.cases.get? id) = key
  have foreign : ¬ ∃ path, key = packageKey path := fun ⟨path, same⟩ =>
    entityKey_ne_packageKey b _ _ path (keyed.trans same)
  cases known : m.stubs.get? key with
  | some stub =>
      refine ⟨.refl sound, ?_⟩
      rintro _ ⟨⟩
      exact (sound.stubs key stub known).2.resolve_left foreign
  | none =>
      cases placed : b.stubPlace? (b.facts.entity id) with
      | none => exact ⟨.refl sound, by simp⟩
      | some place =>
          obtain ⟨told, -, stub⟩ := answers_addStub sound ((b.facts.entity id).nodeKind false)
            (b.facts.entity id).name (some id) ((b.facts.entity id).name = "_")
            (nodeless_symbolFor b id)
            (fun m' sound' => (answers_symbolFor sound' id).imp fun _ _ _ answer => answer.1)
            (.inr ⟨id, _, keyed.symm, declaredAt?_of_stubPlace? placed⟩)
          refine ⟨told, ?_⟩
          rintro _ ⟨⟩
          exact stub.resolve_left foreign

/-- A declaration in the loaded files is marked where its entity is declared. -/
theorem answers_loadedDeclaration? (sound : m.Sound b) (id : EntityId) :
    Answers b m (loadedDeclaration? b id) fun declaration m' => ∀ d, declaration = some d →
      m'.Declares b (b.entityKey (b.facts.entity id) (m.cases.get? id)) d := by
  unfold loadedDeclaration?
  dsimp only
  split
  · exact answers_pure sound (by simp)
  · rename_i declared
    split
    · exact answers_pure sound (by simp)
    · rename_i place placed
      refine answers_get_bind (answers_pure sound fun d found => ?_)
      obtain ⟨path, reported, marks⟩ := sound.declarations _ _ d found
      refine ⟨id, _, b.resolve place, path, _, rfl, ?_, .reported reported, marks⟩
      rw [Base.declaredAt?, if_neg declared, Base.placeOf, placed, Option.getD_some]

/-- What is noted at a node besides its place and its symbol changes nothing that matters. -/
theorem answers_modifyNode (sound : m.Sound b) (id : NodeId) {f : CheckedNode → CheckedNode}
    (node : ∀ n, (f n).node = n.node) (identifier : ∀ n, (f n).identifier = n.identifier)
    (symbol : ∀ n, (f n).symbol = n.symbol) :
    Answers b m (modifyNode id f) fun _ _ => True :=
  ⟨⟨sound.modify node identifier fun _ own => .inl (symbol _ ▸ own),
    m.grows_modify id node identifier, rfl, fun here => here⟩, trivial⟩

theorem answers_typeDeclaration? (sound : m.Sound b) (id : EntityId) :
    Answers b m (typeDeclaration? b id) fun _ _ => True := by
  refine (answers_loadedDeclaration? sound id).bind fun found m' told _ => ?_
  cases found with
  | some declaration => exact answers_pure told.sound trivial
  | none => exact (answers_bareStub told.sound id).imp fun _ _ _ _ => trivial

/-- **A stub declares an entity with the key that was asked for.** -/
theorem answers_stub (sound : m.Sound b) (id : EntityId) :
    Answers b m (stub b id) fun stub m' => ∀ d, stub = some d →
      m'.Declares b (b.entityKey (b.facts.entity id) (m.cases.get? id)) d := by
  unfold stub
  refine answers_get_bind (answers_keyOf_bind ?_)
  generalize keyed : b.entityKey (b.facts.entity id) (m.cases.get? id) = key
  split
  · rename_i known here
    refine answers_pure sound ?_
    rintro _ ⟨⟩
    refine (sound.stubs key known here).2.resolve_left fun ⟨path, same⟩ => ?_
    exact entityKey_ne_packageKey b _ _ path (keyed.trans same)
  · refine (answers_bareStub sound id).bind fun found m' told declares => ?_
    cases found with
    | none => exact answers_pure told.sound (by simp)
    | some stub =>
        have declares := keyed ▸ declares stub rfl
        have bare : Answers b m' (pure (some stub)) fun stub m' => ∀ d, stub = some d →
            m'.Declares b key d :=
          answers_pure told.sound fun d same => Option.some.inj same ▸ declares
        have owned (type : EntityId) : Answers b m' (do
            let owner ← typeDeclaration? b type
            modifyNode stub fun n => { n with owner }
            return some stub) fun stub m' => ∀ d, stub = some d → m'.Declares b key d := by
          refine (answers_typeDeclaration? told.sound type).bind fun owner m₁ told₁ _ => ?_
          have joined := answers_modifyNode told₁.sound stub (f := fun n => { n with owner })
            (fun _ => rfl) (fun _ => rfl) fun _ => rfl
          refine joined.bind fun _ m₂ told₂ _ => ?_
          refine answers_pure told₂.sound fun d same => ?_
          exact Option.some.inj same ▸ (told₁.trans told₂).grows.declares declares
        dsimp only
        split <;> first | exact bare | (split <;> first | exact owned _ | exact bare)

/-- **A declaration declares an entity with the key of the origin.** -/
theorem answers_declaration? (sound : m.Sound b) (id : EntityId) :
    Answers b m (declaration? b id) fun declaration m' => ∀ d, declaration = some d →
      m'.Declares b (b.entityKey (b.facts.entity (b.facts.origin id))
        (m.cases.get? (b.facts.origin id))) d := by
  unfold declaration?
  refine (answers_loadedDeclaration? sound _).bind fun found m' told declares => ?_
  cases found with
  | some declaration => exact answers_pure told.sound declares
  | none => exact told.cases ▸ answers_stub told.sound _

theorem answers_packageClauses (sound : m.Sound b) (id : PackageId) :
    Answers b m (packageClauses b id) fun clauses m' => ∀ d ∈ clauses, m'.Has d := by
  unfold packageClauses
  refine answers_get_bind ?_
  dsimp only
  split
  · rename_i clauses _ here
    exact answers_pure sound (sound.clauses _ _ here)
  · rename_i stub _ here
    refine answers_pure sound fun d member => ?_
    obtain rfl := List.mem_singleton.1 member
    exact (sound.stubs _ _ here).1
  · split
    · exact answers_pure sound (by simp)
    · split
      · exact answers_pure sound (by simp)
      · rename_i clause _
        refine (answers_addStub sound .package clause.name none false
          (nodeless_remember ..) (fun m' sound' => (answers_packageSymbol sound' id).imp
            fun _ _ _ answer => answer.1)
          (.inl ⟨_, rfl⟩)).bind fun stub m' told stands => answers_pure told.sound ?_
        intro d member
        obtain rfl := List.mem_singleton.1 member
        exact stands.1

/-! ## Questions -/

namespace Program

theorem answers_owner (sound : m.Sound b) (id : NodeId) :
    Answers b m (owner b id) fun _ _ => True := by
  refine answers_get_bind ?_
  dsimp only
  split
  · exact answers_pure sound trivial
  · split
    · exact answers_pure sound trivial
    · refine (answers_declaration? sound _).bind fun _ m' told _ => ?_
      exact answers_pure told.sound trivial

/-- **What an identifier denotes** is what it declares, or else what it uses, unless its node has a
symbol of its own; and that is no entity's if it declares something. -/
theorem answers_symbolAt (sound : m.Sound b) (id : NodeId) :
    Answers b m (symbolAt b id) fun answer _ => (∀ s, answer = some s → b.Meant s) ∧
      ((m.node id).symbol = none → answer.map (·.key) =
        ((m.node id).identifier.bind Identifier.entity?).map fun e =>
          b.entityKey (b.facts.entity (b.facts.origin e)) (m.cases.get? (b.facts.origin e))) ∧
      ∀ s e clause d, answer = some s → s.key = b.entityKey e clause →
        (m.node id).identifier.bind Identifier.definition = some d →
        s.key = b.entityKey (b.facts.entity (b.facts.origin d)) (m.cases.get? (b.facts.origin d)) := by
  refine answers_get_bind ?_
  dsimp only
  cases preset : (m.node id).symbol with
  | some s =>
      have presets := (sound.nodes id (m.has_of_symbol preset)).preset s preset
      refine answers_pure sound ⟨?_, by simp, ?_⟩
      · rintro _ ⟨⟩
        exact presets.meant
      · rintro _ e clause d ⟨⟩ own declared
        rw [presets.bare e clause own] at declared
        cases declared
  | none =>
      cases denoted : (m.node id).identifier.bind Identifier.entity? with
      | none => exact answers_pure sound ⟨by simp, fun _ => rfl, by simp⟩
      | some e =>
          obtain ⟨told, meant, own⟩ := answers_symbolFor sound e
          refine ⟨told, ?_, fun _ => congrArg some own, ?_⟩
          · rintro _ ⟨⟩
            exact meant
          · rintro _ _ _ d ⟨⟩ - declared
            obtain ⟨i, here, defines⟩ := Option.bind_eq_some_iff.1 declared
            have same : some d = some e := by
              rw [← denoted, here, Option.bind_some, Identifier.entity?, defines, Option.some_or]
            obtain rfl := Option.some.inj same
            exact own

theorem answers_meaningOf_bind {s : Symbol} {k : Option Meaning → Asking β}
    {Q : β → Memory → Prop}
    (next : Answers b m (k ((m.symbols.get? s.key).map (·.meaning))) Q) :
    Answers b m (meaningOf s >>= k) Q := next

/-- **Declarations of a symbol** declare entities with the key of what it stands for. -/
theorem answers_declarationsOf (sound : m.Sound b) (s : Symbol) :
    Answers b m (declarationsOf b s) fun ids m' => ∀ d ∈ ids, m'.Has d ∧
      ∀ e clause, s.key = b.entityKey e clause → ∃ known used clause clause',
        known = b.facts.origin used ∧ s.key = b.entityKey (b.facts.entity known) clause ∧
        m'.Declares b (b.entityKey (b.facts.entity (b.facts.origin known)) clause') d := by
  refine answers_meaningOf_bind ?_
  cases here : m.symbols.get? s.key with
  | none => exact answers_pure sound (by simp)
  | some known =>
      obtain ⟨own, means, guards⟩ := sound.symbols _ known here
      rw [Option.map_some]
      cases stands : known.meaning with
      | package id =>
          rw [stands] at means
          refine (answers_packageClauses sound id).imp fun ids m' told there d member =>
            ⟨there d member, fun e clause same => ?_⟩
          exact absurd (same.symm.trans (own.symm.trans means)) (entityKey_ne_packageKey b e clause _)
      | guard declaration members =>
          rw [stands] at means
          obtain ⟨package, name, place, key⟩ := means
          refine answers_pure sound fun d member => ?_
          obtain rfl := List.mem_singleton.1 member
          refine ⟨guards _ members stands, fun e clause same => ?_⟩
          exact absurd (same.symm.trans (own.symm.trans key))
            (entityKey_ne_guardKey b e clause package name place)
      | entity id =>
          rw [stands] at means
          obtain ⟨⟨used, origin⟩, clause, key, -⟩ := means
          refine (answers_declaration? sound id).bind fun found m' told declares => ?_
          refine answers_pure told.sound fun d member => ?_
          have declared := declares d (Option.mem_toList.1 member)
          refine ⟨?_, fun _ _ _ => ⟨id, used, clause, _, origin, own.symm.trans key, declared⟩⟩
          obtain ⟨e, clause, place, path, start, -, -, -, marks⟩ := declared
          exact marks.has

theorem answers_resolveAlias (sound : m.Sound b) (s : Symbol) :
    Answers b m (resolveAlias b s) fun target _ => ∀ t, target = some t → b.Meant t := by
  refine answers_meaningOf_bind ?_
  split
  · split
    · refine (answers_packageSymbol sound _).bind fun t m' told meant => ?_
      refine answers_pure told.sound ?_
      rintro _ ⟨⟩
      exact meant.1
    · rename_i info _
      by_cases alias_ : info.isAlias = true
      · rw [if_pos alias_]
        exact answers_optionMapM sound fun e m' sound' =>
          (answers_symbolFor sound' e).imp fun _ _ _ answer => answer.1
      · rw [if_neg alias_]
        exact answers_pure sound (by simp)
    · exact answers_pure sound (by simp)
  · exact answers_pure sound (by simp)

theorem answers_compositeMembers (sound : m.Sound b) (s : Symbol) :
    Answers b m (compositeMembers b s) fun _ _ => True := by
  refine answers_meaningOf_bind ?_
  split
  · refine (answers_listMapM sound fun e m' sound' => (answers_symbolFor sound' e).imp
      fun _ _ _ answer => answer.1).bind fun _ m' told _ => ?_
    exact answers_pure told.sound trivial
  · exact answers_pure sound trivial

theorem answers_containerOf (sound : m.Sound b) (s : Symbol) :
    Answers b m (containerOf b s) fun container _ => ∀ t, container = some t → b.Meant t := by
  refine answers_meaningOf_bind ?_
  split
  · exact answers_optionMapM sound fun e m' sound' =>
      (answers_symbolFor sound' e).imp fun _ _ _ answer => answer.1
  · exact answers_pure sound (by simp)

theorem answers_baseMembers (sound : m.Sound b) (s : Symbol) (name : String) :
    Answers b m (baseMembers b s name) fun members _ => ∀ t ∈ members, b.Meant t := by
  refine answers_meaningOf_bind ?_
  split
  · exact answers_listMapM sound fun e m' sound' =>
      (answers_symbolFor sound' e).imp fun _ _ _ answer => answer.1
  · exact answers_pure sound (by simp)

theorem answers_hoverText (sound : m.Sound b) (id : NodeId) :
    Answers b m (hoverText b id) fun _ _ => True := by
  refine (answers_symbolAt sound id).bind fun found m' told _ => ?_
  cases found with
  | none => exact answers_get_bind (answers_pure told.sound trivial)
  | some s => exact answers_meaningOf_bind (answers_get_bind (answers_pure told.sound trivial))

variable {p : Program}

/-- **Whatever is asked**, the memory stays sound, and what is there does not change. -/
theorem told_asked (sound : m.Sound p.base) (asked : p.oracle.Asked m m') :
    m.Told p.base m' := by
  cases asked with
  | resolveAlias s => exact (answers_resolveAlias sound s).1
  | quiet quiet =>
      cases quiet with
      | owner id => exact (answers_owner sound id).1
      | symbolAt id => exact (answers_symbolAt sound id).1
      | declarationsOf s => exact (answers_declarationsOf sound s).1
      | compositeMembers s use => exact (answers_compositeMembers sound s).1
      | containerOf s => exact (answers_containerOf sound s).1
      | baseMembers s name => exact (answers_baseMembers sound s name).1
      | hoverText id => exact (answers_hoverText sound id).1
      | exportPath s =>
          refine Answers.told (q := exportPath p.base s) (Q := fun _ _ => True) ?_
          refine answers_meaningOf_bind ?_
          split <;> exact answers_pure sound trivial
      | exportAlias id =>
          refine Answers.told (q := exportAlias p.base id) (Q := fun _ _ => True) ?_
          refine answers_get_bind ?_
          dsimp only
          split <;> exact answers_pure sound trivial

theorem told_later (sound : m.Sound p.base) (later : p.oracle.Later m m') : m.Told p.base m' := by
  induction later with
  | refl => exact .refl sound
  | tail _ last ih => exact ih.trans (told_asked ih.sound last)

end Program

end SymbolAtlas.Checked
