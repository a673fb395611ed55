/-
# SymbolAtlas.Proofs.Checked.Mentions -- where the identifiers of a file go

What a file mentions is told by its syntax alone: the names that its declarations give, the
identifiers that stand on their own, and the paths of imports without a name
(`SourceFile.mentions`).  The name of an embedded field is mentioned twice, for the field has
it, and it stands in the type.

The tree of a file is built node by node, and what was built is said of any part of it
(`Outlined`): the nodes are new ones and stay as they are, those of identifiers stand where the
file mentions something, and every identifier that stands on its own, declares nothing and is
nobody's name has a node that names nothing.  Parts that are built one after the other make a
whole (`Outlined.append`), so this follows the syntax (`outlined_outline`).
-/
import SymbolAtlas.Proofs.Checked.Answers

set_option autoImplicit false

namespace SymbolAtlas.Checked

/-! ## What a file mentions -/

/-- Something that an identifier node may stand for. -/
inductive Mention where
  /-- The name that a declaration gives. -/
  | name (i : Identifier)
  /-- An identifier that stands on its own. -/
  | loose (i : Identifier)
  /-- The path of an import without a name. -/
  | path (e : Extent)
deriving DecidableEq, Repr

namespace Mention

/-- The identifier that is mentioned. -/
def identifier? : Mention → Option Identifier
  | name i | loose i => some i
  | path _ => none

/-- Where the mention stands. -/
def extent : Mention → Extent
  | name i | loose i => i.extent
  | path e => e

end Mention

/-- What an import mentions. -/
def Import.mention (i : Import) : Mention :=
  match i.name with
  | some name => .name name
  | none => .path i.path

/-- The names that a field has. -/
def fieldNames (names : List Identifier) (type : Phrase) : List Identifier :=
  match names, type.embeddedName? with
  | [], some i => [i]
  | names, _ => names

mutual

/-- What a phrase mentions. -/
def Phrase.mentions : Phrase → List Mention
  | .identifier i => [.loose i]
  | .selector operand name => operand.mentions ++ [.loose name]
  | .wrapped operand arguments => operand.mentions ++ mentionsAll arguments
  | .sequence parts => mentionsAll parts
  | .signature _ parts => mentionsAll parts
  | .scope _ _ parts => mentionsAll parts
  | .typeSwitch _ init guard subject body =>
      mentionsAll init ++ (guard.toList.map (.name ·.1)) ++ mentionsAll subject ++ body.mentions
  | .structType _ fields => mentionsOfFields fields
  | .interfaceType _ elements => mentionsOfElements elements
  | .declarations _ _ specs => mentionsOfSpecs specs
  | .function _ _ name _ typeParameters _ signature body =>
      [.name name] ++ mentionsAll typeParameters ++ mentionsAll signature ++ mentionsAll body

/-- What phrases mention. -/
def mentionsAll : List Phrase → List Mention
  | [] => []
  | p :: rest => p.mentions ++ mentionsAll rest

/-- What the fields of a struct type mention. -/
def mentionsOfFields : List Field → List Mention
  | [] => []
  | .mk _ _ names type :: rest =>
      ((fieldNames names type).map .name ++ type.mentions) ++ mentionsOfFields rest

/-- What the elements of an interface type mention. -/
def mentionsOfElements : List Element → List Mention
  | [] => []
  | .mk _ _ name type :: rest =>
      (name.toList.map .name ++ type.mentions) ++ mentionsOfElements rest

/-- What declarations after a keyword mention. -/
def mentionsOfSpecs : List Spec → List Mention
  | [] => []
  | .imported i :: rest => [i.mention] ++ mentionsOfSpecs rest
  | .type _ _ name parameters type :: rest =>
      ([.name name] ++ mentionsAll parameters ++ type.mentions) ++ mentionsOfSpecs rest
  | .value _ _ _ names parts :: rest =>
      (names.map .name ++ mentionsAll parts) ++ mentionsOfSpecs rest

end

/-- What a file mentions. -/
def SourceFile.mentions (f : SourceFile) : List Mention :=
  [.name f.name] ++ mentionsAll f.declarations

/-! ## What was built -/

variable {b : Base} {f : LoadedFile} {m m' m'' : Memory} {claimed : List Nat}
  {ms ms' : List Mention} {ns ns' : List Node}

/-- An identifier has a node that names nothing. -/
def Finds (f : LoadedFile) (m : Memory) (ns : List Node) (i : Identifier) : Prop :=
  ∃ n ∈ ns, n.kind = .identifier ∧ n.span = f.span i.extent ∧
    (m.node n.id).identifier = some i ∧ ¬ m.Names n.id

/-- An identifier is nobody's name: the nodes of names are made where they are given. -/
def Unclaimed (ms : List Mention) (claimed : List Nat) (i : Identifier) : Prop :=
  i.mark ∉ claimed ∧ ∀ e, .name e ∈ ms → e.mark ≠ i.mark

/-- A part of a file that mentions `ms` was built: the nodes `ns` were added to a memory. -/
structure Outlined (b : Base) (f : LoadedFile) (ms : List Mention) (claimed : List Nat)
    (m : Memory) (ns : List Node) (m' : Memory) : Prop where
  sound : m'.Sound b
  grows : m.Grows m'
  nodes : ∀ n ∈ ns, ¬ m.Has n.id ∧ m'.Has n.id ∧ (m'.node n.id).node = n ∧ n.file = f.path
  stands : ∀ n ∈ ns, n.kind = .identifier → ∃ x ∈ ms, n.span = f.span x.extent ∧
    (m'.node n.id).identifier = x.identifier?
  finds : ∀ i, .loose i ∈ ms → Unclaimed ms claimed i → i.definition = none → Finds f m' ns i

/-- An outline that starts with a memory builds a part of a file. -/
abbrev Outlines (b : Base) (f : LoadedFile) (ms : List Mention) (claimed : List Nat) (m : Memory)
    (q : Asking (List Tree)) : Prop :=
  Outlined b f ms claimed m (Tree.nodesOf (q m).1) (q m).2

/-- An outline builds a part of a file below any node. -/
abbrev OutlinesBelow (b : Base) (f : LoadedFile) (ms : List Mention) (claimed : List Nat)
    (inside : NodeId → Asking (List Tree)) : Prop :=
  ∀ id m, m.Sound b → m.Has id → Outlines b f ms claimed m (inside id)

theorem Finds.grow {i : Identifier} (h : Finds f m ns i) (grows : m.Grows m')
    (sound : m.Sound b) (inside : ns ⊆ ns') : Finds f m' ns' i := by
  obtain ⟨n, member, kind, span, own, loose⟩ := h
  have has := m.has_of_identifier own
  exact ⟨n, inside member, kind, span, (grows.identifier has).trans own,
    fun names => loose (grows.of_names has (sound.nodes _ has) names)⟩

namespace Outlined

theorem nothing (sound : m'.Sound b) (grows : m.Grows m') : Outlined b f [] claimed m [] m' where
  sound := sound
  grows := grows
  nodes _ member := absurd member List.not_mem_nil
  stands _ member := absurd member List.not_mem_nil
  finds _ member := absurd member List.not_mem_nil

theorem of_eq (h : Outlined b f ms claimed m ns m') (same : ns' = ns) :
    Outlined b f ms claimed m ns' m' := same ▸ h

/-- **Parts that are built one after the other make a whole.** -/
theorem append (first : Outlined b f ms claimed m ns m') (second : Outlined b f ms' claimed m' ns'
    m'') : Outlined b f (ms ++ ms') claimed m (ns ++ ns') m'' where
  sound := second.sound
  grows := first.grows.trans second.grows
  nodes n member := by
    rcases List.mem_append.1 member with old | new
    · obtain ⟨fresh, has, own, file⟩ := first.nodes n old
      exact ⟨fresh, second.grows.has has, (second.grows.node has).trans own, file⟩
    · obtain ⟨fresh, has, own, file⟩ := second.nodes n new
      exact ⟨fun before => fresh (first.grows.has before), has, own, file⟩
  stands n member kind := by
    rcases List.mem_append.1 member with old | new
    · obtain ⟨x, mentioned, span, own⟩ := first.stands n old kind
      have has := (first.nodes n old).2.1
      exact ⟨x, List.mem_append_left _ mentioned, span, (second.grows.identifier has).trans own⟩
    · obtain ⟨x, mentioned, rest⟩ := second.stands n new kind
      exact ⟨x, List.mem_append_right _ mentioned, rest⟩
  finds i member unclaimed bare := by
    rcases List.mem_append.1 member with old | new
    · have free : Unclaimed ms claimed i :=
        ⟨unclaimed.1, fun e given => unclaimed.2 e (List.mem_append_left _ given)⟩
      exact (first.finds i old free bare).grow second.grows first.sound
        (List.subset_append_left _ _)
    · have free : Unclaimed ms' claimed i :=
        ⟨unclaimed.1, fun e given => unclaimed.2 e (List.mem_append_right _ given)⟩
      exact (second.finds i new free bare).grow (.refl _) second.sound
        (List.subset_append_right _ _)

/-- What was claimed for a name that the part gives need not be claimed. -/
theorem unclaim {e : Identifier} (given : .name e ∈ ms)
    (h : Outlined b f ms (e.mark :: claimed) m ns m') : Outlined b f ms claimed m ns m' :=
  { h with
    finds := fun i member unclaimed bare => h.finds i member
      ⟨List.not_mem_cons_of_ne_of_not_mem (unclaimed.2 e given).symm unclaimed.1, unclaimed.2⟩
      bare }

end Outlined

end SymbolAtlas.Checked
