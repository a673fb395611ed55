/-
# SymbolAtlas.Proofs.Naming.Unnumbered -- names by recursion

Where no two declarations of one container have one name, and none may be repeated, a name can
be told without a namer: it is the name of the container and one descriptor more
(`Namer.title`).  `answerAll_title` says that a namer answers exactly this, whatever it was
asked before, and that groups around declarations change nothing.

The obstacle is that a namer numbers by texts that it has seen.  `Namer.Recites` says that it
counted only declarations that it remembers.  One that is named for the first time was not
counted before its container was resolved, and its container does not contain itself, so it was
not counted after that either.

Containers are told apart by their texts here, because a namer does so.  It is not enough that
they are different: two packages may be written alike (`answerAll_ne_title_twoFiles`).  Where their
fields can be read off their texts, it is enough (`Forest.Apart.of_legible`,
`Portrait.Apart.of_legible`).
-/
import SymbolAtlas.Proofs.Naming.Decoding
import SymbolAtlas.Proofs.Naming.Forest

set_option autoImplicit false

namespace SymbolAtlas

open Namer (Call suffix? numbered)

/-! ## Titles -/

namespace Namer

variable (n₀ : Namer)

/-- The global name of the first of these nodes, if the others are the containers around it;
`n₀` says how files are named. -/
def title : List Node → Option SymbolName
  | [] => none
  | node :: rest =>
      match suffix? node.kind with
      | some suffix => (title rest).bind (SymbolName.extended node.name suffix)
      | none =>
          match node.kind with
          | .file => n₀.ofFile node.file
          | .package | .group => title rest
          | _ => none

variable {n₀}

theorem title_of_suffix {node : Node} {suffix : Suffix} (kind : suffix? node.kind = some suffix)
    (rest : List Node) :
    n₀.title (node :: rest) = (n₀.title rest).bind (SymbolName.extended node.name suffix) := by
  rw [title, kind]

theorem title_of_file {node : Node} (kind : node.kind = .file) (rest : List Node) :
    n₀.title (node :: rest) = n₀.ofFile node.file := by
  rw [title, kind]
  rfl

theorem title_of_passes {node : Node} (passes : node.Passes) (rest : List Node) :
    n₀.title (node :: rest) = n₀.title rest := by
  rw [title, Node.suffix?_of_passes passes]
  rcases passes with kind | kind <;> rw [kind]

theorem title_of_other {node : Node} (kind : suffix? node.kind = none)
    (sort : node.kind ∉ [.file, .package, .group]) (rest : List Node) :
    n₀.title (node :: rest) = none := by
  simp only [List.mem_cons, List.not_mem_nil, or_false, not_or] at sort
  rw [title, kind]
  dsimp only
  split <;> simp_all

/-- The title of a node depends on what is read of it. -/
theorem title_congr {node node' : Node} (kind : node.kind = node'.kind)
    (name : node.name = node'.name) (file : node.file = node'.file) {rest rest' : List Node}
    (container : n₀.title rest = n₀.title rest') :
    n₀.title (node :: rest) = n₀.title (node' :: rest') := by
  simp only [title, kind, name, file, container]

end Namer

namespace Forest

variable (F : Forest) (n₀ : Namer)

/-- The node declares `name` below a container with a global name. -/
structure Addressed (id : NodeId) (container : SymbolName) (name : String) : Prop where
  declares : (suffix? (F.node id).kind).isSome
  name_eq : (F.node id).name = name
  named : name ≠ ""
  below : ∃ ids, F.Chain (F.above id) ids ∧ n₀.title (ids.map F.node) = some container

/-- No two declarations share a container and a name, and none may be repeated.  Containers are
told apart by their keys. -/
structure Apart {κ : Type} (key : SymbolName → κ) : Prop where
  alone : ∀ {id id' container container' name}, F.Addressed n₀ id container name →
    F.Addressed n₀ id' container' name → key container = key container' → id = id'
  once : ∀ {id container name}, F.Addressed n₀ id container name →
    (F.node id).redeclarable = false

end Forest

/-! ## Titles that can be read off their texts -/

/-- What holds of the names of files, and of a name with one more descriptor, holds of titles. -/
theorem Namer.title_induction {n₀ : Namer} {Good : SymbolName → Prop}
    (file : ∀ path name, n₀.ofFile path = some name → Good name)
    (extended : ∀ container name suffix title, suffix ≠ .bare → Good container →
      SymbolName.extended name suffix container = some title → Good title)
    {nodes : List Node} {name : SymbolName} (title : n₀.title nodes = some name) : Good name := by
  induction nodes generalizing name with
  | nil => cases title
  | cons node rest ih =>
      rw [Namer.title] at title
      cases kind : suffix? node.kind with
      | some suffix =>
          rw [kind] at title
          obtain ⟨container, here, longer⟩ := Option.bind_eq_some_iff.1 title
          exact extended container _ suffix name (marked_of_suffix? kind) (ih here) longer
      | none =>
          rw [kind] at title
          dsimp only at title
          split at title
          · exact file _ _ title
          · exact ih title
          · exact ih title
          · cases title

/-- A global name that can be read off its text. -/
structure SymbolName.Plain (name : SymbolName) : Prop where
  global : name.global? = some name
  legible : name.Legible

/-- Such names are told apart by their texts. -/
theorem SymbolName.Plain.eq_of_render {name name' : SymbolName} (h : name.Plain) (h' : name'.Plain)
    (same : name.render = name'.render) : name = name' := by
  cases name with
  | localName => exact nomatch h.global
  | globalName =>
      cases name' with
      | localName => exact nomatch h'.global
      | globalName => exact render_global_inj h.legible h'.legible same

/-- A descriptor more keeps a name plain. -/
theorem SymbolName.Plain.extended {container title : SymbolName} (h : container.Plain)
    {name : String} {suffix : Suffix} (marked : suffix ≠ .bare)
    (longer : SymbolName.extended name suffix container = some title) : title.Plain := by
  refine ⟨global?_extended longer, ?_⟩
  cases container with
  | localName => cases longer
  | globalName scheme package ds =>
      simp only [SymbolName.extended] at longer
      split at longer
      · cases longer
      · obtain rfl := Option.some.inj longer
        refine ⟨h.legible.1, fun d member => ?_⟩
        rcases List.mem_append.1 member with before | last
        · exact h.legible.2 d before
        · rw [List.mem_singleton.1 last]
          exact marked

/-- The names of files can be read off their texts. -/
def Namer.LegibleFiles (n₀ : Namer) : Prop :=
  ∀ path name, n₀.ofFile path = some name → name.Legible

theorem Namer.LegibleFiles.plain {n₀ : Namer} (files : n₀.LegibleFiles) (path : String)
    (name : SymbolName) (located : n₀.ofFile path = some name) : name.Plain := by
  refine ⟨?_, files path name located⟩
  obtain ⟨location, -, rfl⟩ := Option.map_eq_some_iff.1 located
  rfl

/-- Where the names of files can be read off their texts, it is enough that no two declarations
share a container and a name. -/
theorem Forest.Apart.of_legible {F : Forest} {n₀ : Namer} (files : n₀.LegibleFiles)
    (apart : F.Apart n₀ (fun container => container)) : F.Apart n₀ SymbolName.render := by
  have plain {nodes : List Node} {name : SymbolName} (title : n₀.title nodes = some name) :
      name.Plain :=
    Namer.title_induction files.plain (fun _ _ _ _ marked h longer => h.extended marked longer)
      title
  refine ⟨fun {_ _ container container' _} h h' same => apart.alone h h' ?_, apart.once⟩
  obtain ⟨_, -, title⟩ := h.below
  obtain ⟨_, -, title'⟩ := h'.below
  exact (plain title).eq_of_render (plain title') same

/-- The same of a program that an oracle portrays. -/
theorem Portrait.Apart.of_legible {π : Type} {P : Portrait π} {n₀ : Namer}
    (files : n₀.LegibleFiles) (apart : P.Apart n₀ (fun container => container)) :
    P.Apart n₀ SymbolName.render := by
  have plain {x : π} {name : SymbolName} (title : P.title n₀ x = some name) : name.Plain :=
    Portrait.title_induction files.plain (fun _ _ _ _ marked h longer => h.extended marked longer)
      title
  refine ⟨fun x y at_ here there => ?_, fun x declares => apart.once x ?_⟩
  · rw [address_map] at here there
    obtain ⟨⟨container, name⟩, first, rfl⟩ := Option.map_eq_some_iff.1 here
    obtain ⟨⟨container', name'⟩, second, same⟩ := Option.map_eq_some_iff.1 there
    obtain ⟨text, rfl⟩ := Prod.mk.inj same
    obtain ⟨above, title⟩ := exists_title_of_address first
    obtain ⟨above', title'⟩ := exists_title_of_address second
    obtain rfl := (plain title').eq_of_render (plain title) text
    exact apart.alone x y _ first second
  · rwa [address_map, Option.isSome_map] at declares

/-! ## One call -/

section Recites

variable {F : Forest} {n₀ n n' : Namer}

/-- The namer remembers titles, and counted only what it remembers. -/
structure Namer.Recites (F : Forest) (n n₀ : Namer) : Prop
    extends n.Upholds F (fun nodes r => globalOf r = n₀.title nodes) n₀ where
  onlyKnown : ∀ text name, 0 < n.count text name → ∃ id container, (n.memo.get? id).isSome ∧
    F.Addressed n₀ id container name ∧ container.render = text

namespace Namer

theorem recites_start (memo : n₀.memo = .empty) (counters : n₀.counters = .empty) :
    n₀.Recites F n₀ := by
  refine ⟨upholds_start memo, fun text name counted => ?_⟩
  rw [count, counters, Table.get?_empty] at counted
  cases counted

theorem Recites.newLocal (h : n.Recites F n₀) : n.newLocal.2.Recites F n₀ :=
  ⟨h.toUpholds.newLocal, h.onlyKnown⟩

theorem Recites.remember (h : n.Recites F n₀) {id : NodeId} {ids : List NodeId} {r : Resolved}
    (chain : F.Chain (some id) ids) (title : globalOf r = n₀.title (ids.map F.node)) :
    (n.remember id r).Recites F n₀ := by
  refine ⟨h.toUpholds.remember chain title, fun text name counted => ?_⟩
  obtain ⟨other, container, known, addressed, text⟩ := h.onlyKnown text name counted
  exact ⟨other, container, isSome_remember_iff.2 (.inr known), addressed, text⟩

/-- A declaration that is counted is remembered. -/
theorem Recites.remember_counted (h : n.Recites F n₀) {id : NodeId} {ids : List NodeId}
    {r : Resolved} (chain : F.Chain (some id) ids)
    (title : globalOf r = n₀.title (ids.map F.node)) {container : SymbolName} {name : String}
    (addressed : F.Addressed n₀ id container name) :
    ((n.counted container.render name).remember id r).Recites F n₀ := by
  refine ⟨(h.toUpholds.counted _ _).remember chain title, fun text' name' counted => ?_⟩
  replace counted : 0 < (n.counted container.render name).count text' name' := counted
  rw [count_counted] at counted
  split at counted
  · rename_i same
    obtain ⟨rfl, rfl⟩ := Prod.mk.inj same
    exact ⟨id, container, isSome_remember_iff.2 (.inl rfl), addressed, rfl⟩
  · exact (h.remember chain title).onlyKnown text' name' counted

end Namer

namespace Forest

/-- A declaration that is not remembered was not counted. -/
theorem Apart.count_eq_zero (apart : F.Apart n₀ SymbolName.render) {id : NodeId}
    {container : SymbolName} {name : String} (addressed : F.Addressed n₀ id container name)
    (recites : n.Recites F n₀) (new : n.memo.get? id = none) :
    n.count container.render name = 0 := by
  refine Nat.eq_zero_of_not_pos fun counted => ?_
  obtain ⟨other, container', known, addressed', text⟩ := recites.onlyKnown _ _ counted
  obtain rfl := apart.alone addressed' addressed text
  rw [new] at known
  cases known

/-- A declaration is named below its container, and without a number. -/
theorem Apart.recites_below (apart : F.Apart n₀ SymbolName.render) (recites : n.Recites F n₀)
    {id : NodeId} {ids : List NodeId} (chain : F.Chain (F.above id) ids) {container : Resolved}
    {suffix : Suffix} (title : globalOf container = n₀.title (ids.map F.node))
    (kind : suffix? (F.node id).kind = some suffix) (new : n.memo.get? id = none) :
    ((n.below container (F.node id) suffix).2.remember id
        (some (n.below container (F.node id) suffix).1)).Recites F n₀ ∧
      globalOf (some (n.below container (F.node id) suffix).1) =
        n₀.title ((id :: ids).map F.node) := by
  have own : n₀.title ((id :: ids).map F.node) =
      (globalOf container).bind (SymbolName.extended (F.node id).name suffix) := by
    rw [title]
    exact Namer.title_of_suffix kind _
  rcases n.below_cases container (F.node id) suffix with
    ⟨lost, same⟩ | ⟨scheme, package, ds, rfl, named, same⟩
  · have untitled : n₀.title ((id :: ids).map F.node) = none := by
      rw [own]
      rcases lost with lost | blank
      · rw [lost]
        rfl
      · cases container with
        | none => rfl
        | some container => cases container <;> simp [globalOf, SymbolName.global?,
            SymbolName.extended, blank]
    rw [same]
    exact ⟨recites.newLocal.remember (.cons chain) untitled.symm, untitled.symm⟩
  · have addressed : F.Addressed n₀ id (.globalName scheme package ds) (F.node id).name :=
      ⟨by simp [kind], rfl, named, ids, chain, title.symm⟩
    have unnumbered : numbered (F.node id) 0 = (F.node id).name := by
      rw [numbered, if_neg (by simp [apart.once addressed])]
    rw [apart.count_eq_zero addressed recites new, unnumbered] at same
    have answer : globalOf (some (n.below (some (.globalName scheme package ds)) (F.node id)
        suffix).1) = n₀.title ((id :: ids).map F.node) := by
      rw [own, same]
      exact (if_neg named).symm
    refine ⟨?_, answer⟩
    rw [same] at answer ⊢
    exact recites.remember_counted (.cons chain) answer addressed

/-- **Resolving a node comes to its title**, whatever was resolved before. -/
theorem Resolves.recites (apart : F.Apart n₀ SymbolName.render) {start : Option NodeId}
    {r : Resolved} (h : F.Resolves start n r n') (recites : n.Recites F n₀) {ids : List NodeId}
    (chain : F.Chain start ids) :
    n'.Recites F n₀ ∧ globalOf r = n₀.title (ids.map F.node) := by
  induction h generalizing ids with
  | nothing =>
      cases chain
      exact ⟨recites, rfl⟩
  | known here => exact ⟨recites, recites.memo _ _ _ here chain⟩
  | @file id n new kind =>
      have title : globalOf (n.ofFile (F.node id).file) = n₀.title (ids.map F.node) := by
        cases chain
        rw [recites.ofFile_eq, Namer.globalOf_ofFile]
        exact (Namer.title_of_file kind _).symm
      exact ⟨recites.remember chain title, title⟩
  | @passed id n n' r new passes _ ih =>
      cases chain with
      | cons rest =>
          obtain ⟨first, title⟩ := ih recites rest
          rw [← Namer.title_of_passes passes] at title
          exact ⟨first.remember (.cons rest) title, title⟩
  | @scope id n new kind =>
      have title : globalOf none = n₀.title (ids.map F.node) := by
        cases chain
        exact (Namer.title_of_other (F.suffix?_of_scope kind) (F.kind_of_scope kind) _).symm
      exact ⟨recites.remember chain title, title⟩
  | @alone id n new kind other =>
      have title : globalOf (some n.newLocal.1) = n₀.title (ids.map F.node) := by
        cases chain
        exact (Namer.title_of_other kind (fun sort => other (List.mem_of_mem_take (i := 3) sort))
          _).symm
      exact ⟨recites.newLocal.remember chain title, title⟩
  | @declared id n n' container suffix new kind first ih =>
      cases chain with
      | cons rest =>
          obtain ⟨before, title⟩ := ih recites rest
          refine apart.recites_below before rest title kind ?_
          by_contra known
          rcases first.inside rest (Option.isSome_iff_ne_none.2 known) with old | inside
          · rw [new] at old
            cases old
          · exact (Chain.cons rest).not_mem inside

theorem Answers.recites (apart : F.Apart n₀ SymbolName.render) {call : Call} {name : SymbolName}
    (h : F.Answers call n name n') (recites : n.Recites F n₀) {ids : List NodeId}
    (chain : F.Chain call.node ids) :
    n'.Recites F n₀ ∧ name.global? = n₀.title (ids.map F.node) := by
  cases h with
  | unbound node =>
      rw [node] at chain
      cases chain
      exact ⟨recites.newLocal, rfl⟩
  | resolved node first =>
      rw [node] at chain
      exact first.recites apart recites chain
  | unresolved node first =>
      rw [node] at chain
      obtain ⟨later, title⟩ := first.recites apart recites chain
      exact ⟨later.newLocal.remember chain title, title⟩

/-- Calls about the nodes `f id` are answered with the titles of the nodes `id`. -/
def Titled (F : Forest) (n₀ : Namer) (f : NodeId → NodeId) (answers : List (Call × SymbolName)) :
    Prop :=
  ∀ id ids name, F.Chain (some id) ids → (.name (some (f id)), name) ∈ answers →
    name.global? = n₀.title (ids.map F.node)

theorem Runs.titled (apart : F.Apart n₀ SymbolName.render) {calls : List Call}
    {names : List SymbolName} (h : F.Runs calls n names n') (grounded : F.Grounded calls)
    (recites : n.Recites F n₀) : F.Titled n₀ id (calls.zip names) := by
  have titles := h.right (fun n => n.Recites F n₀) (fun nodes r => globalOf r = n₀.title nodes)
    grounded (fun recites answers chain => answers.recites apart recites chain) recites
  exact fun id ids name chain answered => titles _ answered ids chain

end Forest
end Recites

/-! ## Groups around declarations -/

/-- Two nodes say the same about themselves, but for where they stand. -/
structure Node.Alike (node node' : Node) : Prop where
  kind : node.kind = node'.kind
  name : node.name = node'.name
  file : node.file = node'.file
  redeclarable : node.redeclarable = node'.redeclarable

instance (node node' : Node) : Decidable (node.Alike node') :=
  decidable_of_iff (node.kind = node'.kind ∧ node.name = node'.name ∧ node.file = node'.file ∧
      node.redeclarable = node'.redeclarable)
    ⟨fun ⟨kind, name, file, redeclarable⟩ => ⟨kind, name, file, redeclarable⟩,
      fun ⟨kind, name, file, redeclarable⟩ => ⟨kind, name, file, redeclarable⟩⟩

namespace Forest

/-- There are only groups on the way from one container out to another. -/
inductive Within (F : Forest) : Option NodeId → Option NodeId → Prop
  | refl (start : Option NodeId) : Within F start start
  | group {id : NodeId} {target : Option NodeId} (kind : (F.node id).kind = .group)
      (rest : Within F (F.above id) target) : Within F (some id) target

/-- `F'` is `F` with any number of groups around its nodes; `f` says where these are now. -/
structure Wraps (F F' : Forest) (f : NodeId → NodeId) : Prop where
  injective : f.Injective
  alike : ∀ id, (F.node id).Alike (F'.node (f id))
  above : ∀ id, F'.Within (F'.above (f id)) ((F.above id).map f)
  others : ∀ id', (∃ id, f id = id') ∨ (F'.node id').kind = .group

variable {F F' : Forest} {f : NodeId → NodeId} {n₀ : Namer}

/-- Titles are the same without the groups. -/
theorem Wraps.exists_chain (wraps : F.Wraps F' f) (n₀ : Namer) {start' : Option NodeId}
    {ids' : List NodeId} (chain' : F'.Chain start' ids') (start : Option NodeId)
    (within : F'.Within start' (start.map f)) :
    ∃ ids, F.Chain start ids ∧ n₀.title (ids.map F.node) = n₀.title (ids'.map F'.node) := by
  induction chain' generalizing start with
  | nil =>
      cases start with
      | none => exact ⟨[], .nil, rfl⟩
      | some id => cases within
  | @cons id' ids' _ ih =>
      generalize target : start.map f = stop at within
      cases within with
      | refl =>
          obtain ⟨id, rfl, rfl⟩ := Option.map_eq_some_iff.1 target
          obtain ⟨ids, chain, title⟩ := ih _ (wraps.above id)
          have alike := wraps.alike id
          exact ⟨id :: ids, .cons chain,
            Namer.title_congr alike.kind alike.name alike.file title⟩
      | group kind rest =>
          subst target
          obtain ⟨ids, chain, title⟩ := ih _ rest
          exact ⟨ids, chain, title.trans (Namer.title_of_passes (.inr kind) _).symm⟩

theorem Wraps.addressed (wraps : F.Wraps F' f) {id' : NodeId} {container : SymbolName}
    {name : String} (h : F'.Addressed n₀ id' container name) :
    ∃ id, f id = id' ∧ F.Addressed n₀ id container name := by
  rcases wraps.others id' with ⟨id, rfl⟩ | group
  · obtain ⟨ids', chain', title⟩ := h.below
    obtain ⟨ids, chain, same⟩ := wraps.exists_chain n₀ chain' _ (wraps.above id)
    have alike := wraps.alike id
    exact ⟨id, rfl, alike.kind ▸ h.declares, alike.name.trans h.name_eq, h.named,
      ids, chain, same.trans title⟩
  · exact absurd h.declares (by simp [group, suffix?])

/-- Groups do not bring declarations together. -/
theorem Apart.wrapped {κ : Type} {key : SymbolName → κ} (apart : F.Apart n₀ key)
    (wraps : F.Wraps F' f) : F'.Apart n₀ key := by
  refine ⟨fun h h' same => ?_, fun h => ?_⟩
  · obtain ⟨id, rfl, here⟩ := wraps.addressed h
    obtain ⟨id', rfl, here'⟩ := wraps.addressed h'
    rw [apart.alone here here' same]
  · obtain ⟨id, rfl, here⟩ := wraps.addressed h
    exact (wraps.alike id).redeclarable ▸ apart.once here

theorem Wraps.titled (wraps : F.Wraps F' f) {answers : List (Call × SymbolName)}
    (h : F'.Titled n₀ id answers)
    (grounded : ∀ answer ∈ answers, ∃ ids, F'.Chain answer.1.node ids) :
    F.Titled n₀ f answers := by
  intro id ids name chain answered
  obtain ⟨ids', chain'⟩ := grounded _ answered
  obtain ⟨ids₁, chain₁, title⟩ := wraps.exists_chain n₀ chain' (some id) (.refl _)
  rw [chain.unique chain₁, title]
  exact h _ ids' name chain' answered

end Forest

namespace Sketch

variable {s s' : Sketch} {n₀ : Namer}

theorem index_lt_of_addressed {id : NodeId} {container : SymbolName} {name : String}
    (h : s.forest.Addressed n₀ id container name) : id.index < s.nodes.size := by
  by_contra absent
  have declares := h.declares
  rw [show s.forest.node id = s.node id from rfl, node_of_absent absent] at declares
  cases declares

/-- Nodes that are not there need no groups. -/
theorem wraps_of_present {f : NodeId → NodeId} (injective : f.Injective)
    (absent : ∀ i, ¬ i < s.nodes.size → ¬ (f ⟨i⟩).index < s'.nodes.size)
    (alike : ∀ i < s.nodes.size, (s.node ⟨i⟩).Alike (s'.node (f ⟨i⟩)))
    (above : ∀ i < s.nodes.size,
      s'.forest.Within (s'.forest.above (f ⟨i⟩)) ((s.forest.above ⟨i⟩).map f))
    (others : ∀ id', (∃ id, f id = id') ∨ (s'.node id').kind = .group) :
    s.forest.Wraps s'.forest f := by
  refine ⟨injective, fun ⟨i⟩ => ?_, fun ⟨i⟩ => ?_, others⟩
  · by_cases present : i < s.nodes.size
    · exact alike i present
    · show (s.node ⟨i⟩).Alike (s'.node (f ⟨i⟩))
      rw [node_of_absent present, node_of_absent (absent i present)]
      exact ⟨rfl, rfl, rfl, rfl⟩
  · by_cases present : i < s.nodes.size
    · exact above i present
    · rw [above_of_absent (absent i present), above_of_absent present]
      exact .refl _

end Sketch

namespace Namer

variable {μ : Type} {o : Oracle μ} {F : Forest}

/-- **A namer answers titles.**  Where no two declarations share a container, told by its text,
and a name, and none may be repeated, the name of a node is its title, or a number if it has
none, whatever calls come before and after.  This does not change with groups around the nodes:
whoever names them then, and whatever else is asked, the title is that of the node without
them. -/
theorem answerAll_title (shows : o.Shows F) (scheme : String) (locate : Locator)
    (apart : F.Apart (start scheme locate) SymbolName.render) :
    (∀ (calls : List Call) (m : μ), F.Grounded calls →
      F.Titled (start scheme locate) id
        (calls.zip (answerAll o calls (start scheme locate) m).1.1)) ∧
    ∀ {μ' : Type} {o' : Oracle μ'} {F' : Forest} {f : NodeId → NodeId}, F.Wraps F' f →
      o'.Shows F' → ∀ (calls : List Call) (m : μ'), F'.Grounded calls →
        F.Titled (start scheme locate) f
          (calls.zip (answerAll o' calls (start scheme locate) m).1.1) := by
  have recites : ∀ F : Forest, (start scheme locate).Recites F (start scheme locate) :=
    fun F => recites_start rfl rfl
  refine ⟨fun calls m grounded => ?_, fun {μ' o' F' f} wraps shows' calls m grounded => ?_⟩
  · exact (shows.runs_answerAll grounded _ m).titled apart grounded (recites F)
  · have titled := (shows'.runs_answerAll grounded _ m).titled (apart.wrapped wraps) grounded
      (recites F')
    refine wraps.titled titled fun answer member => ?_
    exact grounded _ (List.of_mem_zip member).1

/-! ### A group around a type -/

/-- A type with a method. -/
def methodOfType : Sketch :=
  let (file, s) := Sketch.addFile {} "a.go"
  let (type, s) := s.declare file .typeDecl "T"
  let (_, s) := s.declare type .method "run"
  s

/-- The type in a group. -/
def methodOfGrouped : Sketch :=
  let (file, s) := Sketch.addFile {} "a.go"
  let (group, s) := s.addChild file .group ""
  let (type, s) := s.declare group .typeDecl "T"
  let (_, s) := s.declare type .method "run"
  s

/-- Where the nodes are once the group is there. -/
def pastGroup (id : NodeId) : NodeId := ⟨if id.index = 0 then 0 else id.index + 1⟩

theorem apart_methodOfType (n₀ : Namer) :
    methodOfType.forest.Apart n₀ SymbolName.render := by
  have declared : ∀ i < 5, (suffix? (methodOfType.node ⟨i⟩).kind).isSome → i = 1 ∨ i = 3 := by
    decide
  have place : ∀ {id container name}, methodOfType.forest.Addressed n₀ id container name →
      id = ⟨1⟩ ∨ id = ⟨3⟩ := by
    rintro ⟨i⟩ container name h
    simpa using declared i (Sketch.index_lt_of_addressed h) h.declares
  refine ⟨fun {id id' container container' name} h h' _ => ?_, fun h => ?_⟩
  · have same := h.name_eq.trans h'.name_eq.symm
    rcases place h with rfl | rfl <;> rcases place h' with rfl | rfl
    · rfl
    · exact absurd same (by decide)
    · exact absurd same (by decide)
    · rfl
  · rcases place h with rfl | rfl <;> rfl

theorem wraps_methodOfGrouped :
    methodOfType.forest.Wraps methodOfGrouped.forest pastGroup := by
  have injective : pastGroup.Injective := by
    rintro ⟨i⟩ ⟨j⟩ same
    simp only [pastGroup, NodeId.mk.injEq] at same ⊢
    split at same <;> split at same <;> omega
  have absent : ∀ i, ¬ i < 5 → ¬ (pastGroup ⟨i⟩).index < 6 := by
    intro i outside
    simp only [pastGroup]
    split <;> omega
  have up : ∀ i < 5, i ≠ 1 → methodOfGrouped.forest.above (pastGroup ⟨i⟩) =
      (methodOfType.forest.above ⟨i⟩).map pastGroup := by
    decide
  have type : methodOfGrouped.forest.above (pastGroup ⟨1⟩) = some ⟨1⟩ := by decide
  have group : methodOfGrouped.forest.above ⟨1⟩ =
      (methodOfType.forest.above ⟨1⟩).map pastGroup := by
    decide
  refine Sketch.wraps_of_present injective absent (by decide) (fun i present => ?_) ?_
  · by_cases grouped : i = 1
    · subst grouped
      rw [type]
      exact .group (by decide) (group ▸ .refl _)
    · exact up i present grouped ▸ .refl _
  · rintro ⟨i⟩
    match i with
    | 0 => exact .inl ⟨⟨0⟩, rfl⟩
    | 1 => exact .inr rfl
    | i + 2 => exact .inl ⟨⟨i + 1⟩, rfl⟩

/-- The name of the method. -/
def methodName : SymbolName :=
  .globalName "gomod" {} [⟨"p", .package⟩, ⟨"T", .type⟩, ⟨"run", .method⟩]

theorem answerAll_title_grouped :
    let n₀ := start "" fun _ => some { path := "p" }
    let calls : List Call := [.fresh, .name (some ⟨3⟩), .name (some ⟨1⟩)]
    let calls' : List Call := [.name (some ⟨4⟩), .name (some ⟨1⟩), .name (some ⟨4⟩)]
    methodOfType.forest.Wraps methodOfGrouped.forest pastGroup ∧
      methodOfType.forest.Apart n₀ SymbolName.render ∧
      methodOfType.forest.Grounded calls ∧ methodOfGrouped.forest.Grounded calls' ∧
      (answerAll methodOfType.oracle calls n₀ []).1.1[1]? = some methodName ∧
      (answerAll methodOfGrouped.oracle calls' n₀ []).1.1[0]? = some methodName ∧
      methodOfType.forest.Titled n₀ id
        (calls.zip (answerAll methodOfType.oracle calls n₀ []).1.1) ∧
      methodOfType.forest.Titled n₀ pastGroup
        (calls'.zip (answerAll methodOfGrouped.oracle calls' n₀ []).1.1) := by
  intro n₀ calls calls'
  have apart := apart_methodOfType n₀
  have wraps := wraps_methodOfGrouped
  have type : methodOfType.forest.Chain (some ⟨1⟩) [⟨1⟩, ⟨0⟩] := .cons (.cons .nil)
  have method : methodOfType.forest.Chain (some ⟨3⟩) [⟨3⟩, ⟨1⟩, ⟨0⟩] := .cons type
  have grounded : methodOfType.forest.Grounded calls := by
    simp only [Forest.Grounded, calls, List.forall_mem_cons, Call.node]
    exact ⟨⟨_, .nil⟩, ⟨_, method⟩, ⟨_, type⟩, by simp⟩
  have group : methodOfGrouped.forest.Chain (some ⟨1⟩) [⟨1⟩, ⟨0⟩] := .cons (.cons .nil)
  have method' : methodOfGrouped.forest.Chain (some ⟨4⟩) [⟨4⟩, ⟨2⟩, ⟨1⟩, ⟨0⟩] :=
    .cons (.cons group)
  have grounded' : methodOfGrouped.forest.Grounded calls' := by
    simp only [Forest.Grounded, calls', List.forall_mem_cons, Call.node]
    exact ⟨⟨_, method'⟩, ⟨_, group⟩, ⟨_, method'⟩, by simp⟩
  obtain ⟨titled, wrapped⟩ :=
    answerAll_title methodOfType.shows "" (fun _ => some { path := "p" }) apart
  exact ⟨wraps, apart, grounded, grounded', by decide, by decide,
    titled calls [] grounded, wrapped wraps methodOfGrouped.shows calls' [] grounded'⟩

/-! ### Packages that are written alike -/

/-- Two files, each with a function of one name. -/
def twoFiles : Sketch :=
  let (first, s) := Sketch.addFile {} "a.go"
  let (_, s) := s.declare first .function "f"
  let (second, s) := s.addFile "b.go"
  let (_, s) := s.declare second .function "f"
  s

/-- The files have packages of one name and path: one without a version, and one whose version
is what is written for none. -/
def versions (path : String) : Option Location :=
  some { path := "p", package := { version := if path = "a.go" then "" else "." } }

/-- The functions have different containers, but the second one gets a number. -/
theorem answerAll_ne_title_twoFiles :
    twoFiles.forest.Apart (start "" versions) (fun container => container) ∧
      (∀ id, (twoFiles.forest.node id).redeclarable = false) ∧
      twoFiles.forest.Chain (some ⟨4⟩) [⟨4⟩, ⟨3⟩] ∧
      ∃ name, (.name (some ⟨4⟩), name) ∈ [Call.name (some ⟨1⟩), .name (some ⟨4⟩)].zip
          (answerAll twoFiles.oracle [.name (some ⟨1⟩), .name (some ⟨4⟩)]
            (start "" versions) []).1.1 ∧
        name.isLocal = false ∧
        name.global? ≠ (start "" versions).title ([⟨4⟩, ⟨3⟩].map twoFiles.forest.node) := by
  have redeclarable : ∀ id, (twoFiles.forest.node id).redeclarable = false := by
    rintro ⟨i⟩
    by_cases inside : i < 6
    · match i, inside with
      | 0, _ | 1, _ | 2, _ | 3, _ | 4, _ | 5, _ => rfl
    · rw [show twoFiles.forest.node ⟨i⟩ = twoFiles.node ⟨i⟩ from rfl,
        Sketch.node_of_absent inside]
  have declared : ∀ i < 6, (suffix? (twoFiles.node ⟨i⟩).kind).isSome → i = 1 ∨ i = 4 := by
    decide
  have place : ∀ {id container name},
      twoFiles.forest.Addressed (start "" versions) id container name →
      (id = ⟨1⟩ ∧ container = .globalName "gomod" { version := "" } [⟨"p", .package⟩]) ∨
        id = ⟨4⟩ ∧ container = .globalName "gomod" { version := "." } [⟨"p", .package⟩] := by
    rintro ⟨i⟩ container name h
    obtain ⟨ids, chain, title⟩ := h.below
    rcases declared i (Sketch.index_lt_of_addressed h) h.declares with rfl | rfl
    · obtain rfl : ids = [⟨0⟩] := chain.unique (.cons .nil)
      exact .inl ⟨rfl, (Option.some.inj title).symm⟩
    · obtain rfl : ids = [⟨3⟩] := chain.unique (.cons .nil)
      exact .inr ⟨rfl, (Option.some.inj title).symm⟩
  refine ⟨⟨fun h h' same => ?_, fun _ => redeclarable _⟩, redeclarable, .cons (.cons .nil),
    .globalName "gomod" { version := "." } [⟨"p", .package⟩, ⟨"f1", .method⟩], by decide,
    rfl, by decide⟩
  rcases place h with ⟨rfl, first⟩ | ⟨rfl, first⟩ <;>
    rcases place h' with ⟨rfl, second⟩ | ⟨rfl, second⟩
  · rfl
  · exact absurd (first.symm.trans (same.trans second)) (by decide)
  · exact absurd (first.symm.trans (same.trans second)) (by decide)
  · rfl

end Namer
end SymbolAtlas
