/-
# SymbolAtlas.Proofs.Checked.Faithful -- the tree of a file holds each identifier once

The outline of a phrase plants every identifier of the phrase (`planted_outline`), by induction on
the syntax.  Only the name of an embedded field stands elsewhere: it has a node below the field and
is claimed there, so it is passed over where it stands in the type.  That loses nothing else, for no
two identifiers have the same mark (`cons_unclaimed_perm`).

Together with what was read (`Report.identifiers_fileOf`): each identifier of a syntax tree has
exactly one node in the tree of its file, and the parents of every node lead to the file
(`outline_faithful`).
-/
import Mathlib.Logic.Relation
import SymbolAtlas.Proofs.Checked.Planting
import SymbolAtlas.Proofs.Checked.Reading

set_option autoImplicit false

namespace SymbolAtlas

namespace Checked

variable {f : LoadedFile} {m : Memory} {is is' : List Identifier} {claimed : List Nat}

/-! ## Claims -/

/-- The identifiers that have no node elsewhere. -/
def unclaimed (claimed : List Nat) (is : List Identifier) : List Identifier :=
  is.filter (·.mark ∉ claimed)

theorem unclaimed_append (claimed : List Nat) (is is' : List Identifier) :
    unclaimed claimed (is ++ is') = unclaimed claimed is ++ unclaimed claimed is' :=
  List.filter_append ..

theorem unclaimed_of_free (free : ∀ i ∈ is, i.mark ∉ claimed) : unclaimed claimed is = is :=
  List.filter_eq_self.2 fun i member => decide_eq_true (free i member)

/-- **An identifier that is claimed where it stands is not lost if it has a node elsewhere.** -/
theorem cons_unclaimed_perm (distinct : (is.map (·.mark)).Nodup) {i : Identifier} (member : i ∈ is)
    (free : i.mark ∉ claimed) :
    (i :: unclaimed (i.mark :: claimed) is).Perm (unclaimed claimed is) := by
  have there : i ∈ unclaimed claimed is := List.mem_filter.2 ⟨member, decide_eq_true free⟩
  have nodup : (unclaimed claimed is).Nodup := (List.Nodup.of_map _ distinct).filter _
  have others : unclaimed (i.mark :: claimed) is = (unclaimed claimed is).erase i := by
    rw [nodup.erase_eq_filter, unclaimed, unclaimed, List.filter_filter]
    refine List.filter_congr fun e inside => ?_
    have same : e.mark = i.mark ↔ e = i :=
      ⟨fun equal => List.inj_on_of_nodup_map distinct inside member equal, fun equal => equal ▸ rfl⟩
    by_cases equal : e = i
    · simp [equal]
    · simp [equal, same]
  rw [others]
  exact (List.perm_cons_erase there).symm

/-- An identifier on its own is planted, unless it is claimed. -/
theorem planted_identifier (b : Base) (claimed : List Nat) (inSignature : Bool) (i : Identifier) :
    PlantsBelow f (unclaimed claimed [i]) fun parent =>
      outlineIdentifier b f claimed parent inSignature i := by
  intro parent m
  show Plants f parent _ m (outlineIdentifier b f claimed parent inSignature i)
  unfold outlineIdentifier
  by_cases known : claimed.contains i.mark = true
  · have none : unclaimed claimed [i] = [] := by simpa [unclaimed] using known
    rw [if_pos known, none]
    exact .nothing (.refl m)
  · have alone : unclaimed claimed [i] = [i] := by simpa [unclaimed] using known
    rw [if_neg known, alone]
    cases i.definition with
    | none => exact planted_addIdentifier i parent m
    | some d =>
        exact planted_bare b ((b.facts.entity d).nodeKind inSignature) i i.extent (some d) ""
          (isBlankName i.name) (fun _ => pure ()) (fun _ m => .refl m) parent m

/-- What a part of a file mentions has different marks, and the names that it gives are not
claimed. -/
structure Clear (claimed : List Nat) (ms : List Mention) (is : List Identifier) : Prop where
  distinct : (is.map (·.mark)).Nodup
  names : ∀ e, .name e ∈ ms → e.mark ∉ claimed

section

variable {ms ms' : List Mention}

theorem Clear.left (clear : Clear claimed (ms ++ ms') (is ++ is')) : Clear claimed ms is where
  distinct := ((List.map_append ▸ clear.distinct :) : List.Nodup (_ ++ _)).of_append_left
  names e member := clear.names e (List.mem_append_left _ member)

theorem Clear.right (clear : Clear claimed (ms ++ ms') (is ++ is')) : Clear claimed ms' is' where
  distinct := ((List.map_append ▸ clear.distinct :) : List.Nodup (_ ++ _)).of_append_right
  names e member := clear.names e (List.mem_append_right _ member)

/-- Names that are given are all unclaimed. -/
theorem Clear.unclaimed_names (clear : Clear claimed ms is) (given : ∀ i ∈ is, .name i ∈ ms) :
    unclaimed claimed is = is :=
  unclaimed_of_free fun i member => clear.names i (given i member)

end

/-- The name of an embedded field is an identifier of its type. -/
theorem mem_of_embeddedName? {type : Phrase} {i : Identifier}
    (named : type.embeddedName? = some i) : i ∈ type.identifiers := by
  match type with
  | .identifier j =>
      obtain rfl := Option.some.inj named
      simp [Phrase.identifiers]
  | .selector operand name =>
      obtain rfl := Option.some.inj named
      simp [Phrase.identifiers]
  | .wrapped operand arguments =>
      have inside : i ∈ operand.identifiers := mem_of_embeddedName? named
      rw [Phrase.identifiers]
      exact List.mem_append_left _ inside
  | .sequence .. | .signature .. | .scope .. | .typeSwitch .. | .structType ..
  | .interfaceType .. | .declarations .. | .function .. => cases named

mutual

/-- The names that a phrase gives are identifiers of the phrase. -/
theorem mem_identifiers_of_name (p : Phrase) {e : Identifier} (given : .name e ∈ p.mentions) :
    e ∈ p.identifiers := by
  match p with
  | .identifier i => simp [Phrase.mentions] at given
  | .selector operand name =>
      have inside := mem_identifiers_of_name operand (e := e)
      simp only [Phrase.mentions, Phrase.identifiers, List.mem_append, List.mem_singleton,
        reduceCtorEq, or_false] at given ⊢
      exact .inl (inside given)
  | .wrapped operand arguments =>
      have inside := mem_identifiers_of_name operand (e := e)
      have behind := mem_identifiersOfAll arguments (e := e)
      simp only [Phrase.mentions, Phrase.identifiers, List.mem_append] at given ⊢
      exact given.imp inside behind
  | .sequence parts =>
      simp only [Phrase.mentions, Phrase.identifiers] at given ⊢
      exact mem_identifiersOfAll parts given
  | .signature _ parts =>
      simp only [Phrase.mentions, Phrase.identifiers] at given ⊢
      exact mem_identifiersOfAll parts given
  | .scope _ _ parts =>
      simp only [Phrase.mentions, Phrase.identifiers] at given ⊢
      exact mem_identifiersOfAll parts given
  | .typeSwitch _ init guard subject body =>
      have before := mem_identifiersOfAll init (e := e)
      have between := mem_identifiersOfAll subject (e := e)
      have behind := mem_identifiers_of_name body (e := e)
      simp only [Phrase.mentions, Phrase.identifiers, List.mem_append, List.mem_map,
        Mention.name.injEq] at given ⊢
      exact given.imp (.imp (.imp before id) between) behind
  | .structType _ fields =>
      simp only [Phrase.mentions, Phrase.identifiers] at given ⊢
      exact mem_identifiersOfFields fields given
  | .interfaceType _ elements =>
      simp only [Phrase.mentions, Phrase.identifiers] at given ⊢
      exact mem_identifiersOfElements elements given
  | .declarations _ _ specs =>
      simp only [Phrase.mentions, Phrase.identifiers] at given ⊢
      exact mem_identifiersOfSpecs specs given
  | .function _ _ name _ parameters _ signature body =>
      have first := mem_identifiersOfAll parameters (e := e)
      have second := mem_identifiersOfAll signature (e := e)
      have third := mem_identifiersOfAll body (e := e)
      simp only [Phrase.mentions, Phrase.identifiers, List.mem_append, List.mem_singleton,
        Mention.name.injEq] at given ⊢
      exact given.imp (.imp (.imp id first) second) third

theorem mem_identifiersOfAll (ps : List Phrase) {e : Identifier}
    (given : .name e ∈ mentionsAll ps) : e ∈ identifiersOfAll ps := by
  match ps with
  | [] => simp [mentionsAll] at given
  | p :: rest =>
      have first := mem_identifiers_of_name p (e := e)
      have later := mem_identifiersOfAll rest (e := e)
      simp only [mentionsAll, identifiersOfAll, List.mem_append] at given ⊢
      exact given.imp first later

theorem mem_identifiersOfFields (fields : List Field) {e : Identifier}
    (given : .name e ∈ mentionsOfFields fields) : e ∈ identifiersOfFields fields := by
  match fields with
  | [] => simp [mentionsOfFields] at given
  | .mk _ _ names type :: rest =>
      have inside := mem_identifiers_of_name type (e := e)
      have later := mem_identifiersOfFields rest (e := e)
      have own : e ∈ fieldNames names type → e ∈ names ∨ e ∈ type.identifiers := by
        unfold fieldNames
        split
        · rename_i i named
          intro same
          exact .inr (List.mem_singleton.1 same ▸ mem_of_embeddedName? named)
        · exact .inl
      simp only [mentionsOfFields, identifiersOfFields, List.mem_append, List.mem_map,
        Mention.name.injEq, exists_eq_right] at given ⊢
      exact given.imp (fun here => here.elim own fun there => .inr (inside there)) later

theorem mem_identifiersOfElements (elements : List Element) {e : Identifier}
    (given : .name e ∈ mentionsOfElements elements) : e ∈ identifiersOfElements elements := by
  match elements with
  | [] => simp [mentionsOfElements] at given
  | .mk _ _ name type :: rest =>
      have inside := mem_identifiers_of_name type (e := e)
      have later := mem_identifiersOfElements rest (e := e)
      simp only [mentionsOfElements, identifiersOfElements, List.mem_append, List.mem_map,
        Mention.name.injEq, exists_eq_right] at given ⊢
      exact given.imp (.imp id inside) later

theorem mem_identifiersOfSpecs (specs : List Spec) {e : Identifier}
    (given : .name e ∈ mentionsOfSpecs specs) : e ∈ identifiersOfSpecs specs := by
  match specs with
  | [] => simp [mentionsOfSpecs] at given
  | .imported i :: rest =>
      have later := mem_identifiersOfSpecs rest (e := e)
      have own : Mention.name e = i.mention → e ∈ i.name.toList := by
        unfold Import.mention
        cases i.name <;> simp
      simp only [mentionsOfSpecs, identifiersOfSpecs, List.mem_append,
        List.mem_singleton] at given ⊢
      exact given.imp own later
  | .type _ _ name parameters type :: rest =>
      have first := mem_identifiersOfAll parameters (e := e)
      have second := mem_identifiers_of_name type (e := e)
      have later := mem_identifiersOfSpecs rest (e := e)
      simp only [mentionsOfSpecs, identifiersOfSpecs, List.mem_append, List.mem_singleton,
        Mention.name.injEq] at given ⊢
      exact given.imp (.imp (.imp id first) second) later
  | .value _ _ _ names parts :: rest =>
      have inside := mem_identifiersOfAll parts (e := e)
      have later := mem_identifiersOfSpecs rest (e := e)
      simp only [mentionsOfSpecs, identifiersOfSpecs, List.mem_append, List.mem_map,
        Mention.name.injEq, exists_eq_right] at given ⊢
      exact given.imp (.imp id inside) later

end

/-- The name of an embedded field is not a name that its type gives. -/
theorem mark_ne_of_embeddedName? {type : Phrase} {i e : Identifier}
    (distinct : (type.identifiers.map (·.mark)).Nodup) (named : type.embeddedName? = some i)
    (given : .name e ∈ type.mentions) : e.mark ≠ i.mark := by
  match type with
  | .identifier j => simp [Phrase.mentions] at given
  | .selector operand name =>
      obtain rfl := Option.some.inj named
      rw [Phrase.identifiers, List.map_append, List.nodup_append] at distinct
      simp only [Phrase.mentions, List.mem_append, List.mem_singleton, reduceCtorEq,
        or_false] at given
      exact distinct.2.2 _ (List.mem_map_of_mem (mem_identifiers_of_name operand given)) _
        (by simp)
  | .wrapped operand arguments =>
      have named : operand.embeddedName? = some i := named
      rw [Phrase.identifiers, List.map_append, List.nodup_append] at distinct
      rw [Phrase.mentions] at given
      rcases List.mem_append.1 given with inside | behind
      · exact mark_ne_of_embeddedName? distinct.1 named inside
      · exact (distinct.2.2 _ (List.mem_map_of_mem (mem_of_embeddedName? named)) _
          (List.mem_map_of_mem (mem_identifiersOfAll arguments behind))).symm
  | .sequence .. | .signature .. | .scope .. | .typeSwitch .. | .structType ..
  | .interfaceType .. | .declarations .. | .function .. => cases named

/-! ## Phrases -/

/-- An embedded field holds its type without the name that it has itself. -/
theorem planted_embedded (b : Base) {type : Phrase} {i : Identifier} (extent : Extent)
    (doc : String) (clear : Clear claimed (.name i :: type.mentions) type.identifiers)
    (named : type.embeddedName? = some i)
    (plants : Clear (i.mark :: claimed) type.mentions type.identifiers →
      PlantsBelow f (unclaimed (i.mark :: claimed) type.identifiers) fun id =>
        outline b f (i.mark :: claimed) id false type) :
    PlantsBelow f (unclaimed claimed type.identifiers) fun id => do
      let d ← declare b f id .field i extent i.definition doc
      return [d.tree (← outline b f (i.mark :: claimed) d.declaration.id false type)] := by
  have apart : Clear (i.mark :: claimed) type.mentions type.identifiers := by
    refine ⟨clear.distinct, fun e given => List.not_mem_cons_of_ne_of_not_mem ?_ ?_⟩
    · exact mark_ne_of_embeddedName? clear.distinct named given
    · exact clear.names e (List.mem_cons_of_mem _ given)
  have order := cons_unclaimed_perm clear.distinct (mem_of_embeddedName? named)
    (clear.names i List.mem_cons_self)
  intro id m
  exact (planted_declaring b .field i extent i.definition doc (isBlankName i.name)
    (fun d => plants apart d.declaration.id) id m).perm order

mutual

/-- **The outline of a phrase plants every identifier of the phrase that is not claimed.** -/
theorem planted_outline (b : Base) (claimed : List Nat) (inSignature : Bool) (p : Phrase)
    (clear : Clear claimed p.mentions p.identifiers) :
    PlantsBelow f (unclaimed claimed p.identifiers) fun id =>
      outline b f claimed id inSignature p := by
  intro parent m
  dsimp only
  match p with
  | .identifier i =>
      rw [Phrase.identifiers, outline]
      exact planted_identifier b claimed inSignature i parent m
  | .selector operand name =>
      rw [Phrase.mentions, Phrase.identifiers] at clear
      rw [Phrase.identifiers, outline, unclaimed_append]
      exact plants_append (planted_outline b claimed inSignature operand clear.left)
        (planted_identifier b claimed inSignature name) parent m
  | .wrapped operand arguments =>
      rw [Phrase.mentions, Phrase.identifiers] at clear
      rw [Phrase.identifiers, outline, unclaimed_append]
      exact plants_append (planted_outline b claimed inSignature operand clear.left)
        (planted_outlineAll b claimed inSignature arguments clear.right) parent m
  | .sequence parts =>
      rw [Phrase.mentions, Phrase.identifiers] at clear
      rw [Phrase.identifiers, outline]
      exact planted_outlineAll b claimed inSignature parts clear parent m
  | .signature extent parts =>
      rw [Phrase.mentions, Phrase.identifiers] at clear
      rw [Phrase.identifiers, outline]
      exact planted_container rfl extent (planted_outlineAll b claimed true parts clear) parent m
  | .scope extent _ parts =>
      rw [Phrase.mentions, Phrase.identifiers] at clear
      rw [Phrase.identifiers, outline]
      exact planted_container rfl extent (planted_outlineAll b claimed false parts clear) parent m
  | .typeSwitch extent init guard subject body =>
      rw [Phrase.mentions, Phrase.identifiers] at clear
      have guarded : unclaimed claimed (guard.toList.map (·.1)) = guard.toList.map (·.1) := by
        refine clear.left.left.right.unclaimed_names fun i member => ?_
        obtain ⟨entry, there, rfl⟩ := List.mem_map.1 member
        exact List.mem_map_of_mem there
      rw [Phrase.identifiers, outline, unclaimed_append, unclaimed_append, unclaimed_append,
        guarded]
      exact planted_typeSwitch b extent guard _ body
        (planted_outlineAll b claimed false init clear.left.left.left)
        (planted_outlineAll b claimed false subject clear.left.right)
        (planted_outline b claimed false body clear.right) parent m
  | .structType extent fields =>
      rw [Phrase.mentions, Phrase.identifiers] at clear
      rw [Phrase.identifiers, outline]
      exact planted_container rfl extent (planted_outlineFields b claimed fields clear) parent m
  | .interfaceType extent elements =>
      rw [Phrase.mentions, Phrase.identifiers] at clear
      rw [Phrase.identifiers, outline]
      exact planted_container rfl extent (planted_outlineElements b claimed elements clear) parent m
  | .declarations extent doc specs =>
      rw [Phrase.mentions, Phrase.identifiers] at clear
      rw [Phrase.identifiers, outline]
      exact planted_container rfl extent (planted_outlineSpecs b claimed _ specs clear) parent m
  | .function extent doc name isMethod typeParameters signatureExtent signature body =>
      rw [Phrase.mentions, Phrase.identifiers] at clear
      have named : unclaimed claimed [name] = [name] :=
        clear.left.left.left.unclaimed_names (by simp)
      have whole (kind : NodeKind) (redeclarable : Bool) (note : Declared → Asking Unit)
          (noted : ∀ d (m : Memory), m.Grows (note d m).2) :=
        planted_function b kind name extent signatureExtent doc redeclarable noted
          (planted_outlineAll b claimed false typeParameters clear.left.left.right)
          (planted_outlineAll b claimed true signature clear.left.right)
          (planted_outlineAll b claimed false body clear.right) parent m
      rw [Phrase.identifiers, outline, unclaimed_append, unclaimed_append, unclaimed_append, named]
      cases isMethod with
      | false => exact whole _ _ (fun _ => pure ()) fun _ m => .refl m
      | true =>
          exact whole _ _ (fun d => modifyNode d.declaration.id _) fun d m =>
            m.grows_modify d.declaration.id (fun _ => rfl) fun _ => rfl

theorem planted_outlineAll (b : Base) (claimed : List Nat) (inSignature : Bool) (ps : List Phrase)
    (clear : Clear claimed (mentionsAll ps) (identifiersOfAll ps)) :
    PlantsBelow f (unclaimed claimed (identifiersOfAll ps)) fun id =>
      outlineAll b f claimed id inSignature ps := by
  intro parent m
  dsimp only
  match ps with
  | [] =>
      rw [identifiersOfAll, outlineAll]
      exact .nothing (.refl m)
  | p :: rest =>
      rw [mentionsAll, identifiersOfAll] at clear
      rw [identifiersOfAll, outlineAll, unclaimed_append]
      exact plants_append (planted_outline b claimed inSignature p clear.left)
        (planted_outlineAll b claimed inSignature rest clear.right) parent m

theorem planted_outlineFields (b : Base) (claimed : List Nat) (fields : List Field)
    (clear : Clear claimed (mentionsOfFields fields) (identifiersOfFields fields)) :
    PlantsBelow f (unclaimed claimed (identifiersOfFields fields)) fun id =>
      outlineFields b f claimed id fields := by
  intro parent m
  dsimp only
  match fields with
  | [] =>
      rw [identifiersOfFields, outlineFields]
      exact .nothing (.refl m)
  | .mk extent doc names type :: rest =>
      rw [mentionsOfFields, identifiersOfFields] at clear
      have next := planted_outlineFields b claimed rest clear.right
      rw [identifiersOfFields, unclaimed_append]
      by_cases embedded : ∃ i, names = [] ∧ type.embeddedName? = some i
      · obtain ⟨i, rfl, named⟩ := embedded
        rw [fieldNames.eq_1 _ _ named] at clear
        have field := planted_embedded b extent doc clear.left named
          (planted_outline b (i.mark :: claimed) false type)
        rw [outlineFields.eq_2 _ _ _ _ _ _ _ _ _ named]
        exact plants_append field next parent m
      · have plain (i : Identifier) (none : names = []) (named : type.embeddedName? = some i) :
            False := embedded ⟨i, none, named⟩
        rw [fieldNames.eq_2 _ _ plain] at clear
        have given : unclaimed claimed names = names :=
          clear.left.left.unclaimed_names fun _ member => List.mem_map_of_mem member
        have field := planted_names b .field extent doc names
          (planted_outline b claimed false type clear.left.right)
        rw [outlineFields.eq_3 _ _ _ _ _ _ _ _ _ plain, unclaimed_append, given]
        exact plants_append field next parent m

theorem planted_outlineElements (b : Base) (claimed : List Nat) (elements : List Element)
    (clear : Clear claimed (mentionsOfElements elements) (identifiersOfElements elements)) :
    PlantsBelow f (unclaimed claimed (identifiersOfElements elements)) fun id =>
      outlineElements b f claimed id elements := by
  intro parent m
  dsimp only
  match elements with
  | [] =>
      rw [identifiersOfElements, outlineElements]
      exact .nothing (.refl m)
  | .mk extent doc none type :: rest =>
      rw [mentionsOfElements, identifiersOfElements] at clear
      rw [identifiersOfElements, outlineElements, unclaimed_append]
      exact plants_append (planted_outline b claimed false type clear.left)
        (planted_outlineElements b claimed rest clear.right) parent m
  | .mk extent doc (some i) type :: rest =>
      rw [mentionsOfElements, identifiersOfElements] at clear
      have named : unclaimed claimed [i] = [i] := clear.left.left.unclaimed_names (by simp)
      have method := planted_declaring b .interfaceMethod i extent i.definition doc
        (isBlankName i.name) fun d =>
          planted_outline b claimed false type clear.left.right d.declaration.id
      rw [identifiersOfElements, outlineElements, unclaimed_append, unclaimed_append]
      rw [show unclaimed claimed (some i).toList = [i] from named]
      exact plants_append method (planted_outlineElements b claimed rest clear.right) parent m

theorem planted_outlineSpecs (b : Base) (claimed : List Nat) (shared : String) (specs : List Spec)
    (clear : Clear claimed (mentionsOfSpecs specs) (identifiersOfSpecs specs)) :
    PlantsBelow f (unclaimed claimed (identifiersOfSpecs specs)) fun id =>
      outlineSpecs b f claimed id shared specs := by
  intro parent m
  dsimp only
  match specs with
  | [] =>
      rw [identifiersOfSpecs, outlineSpecs]
      exact .nothing (.refl m)
  | .imported i :: rest =>
      rw [mentionsOfSpecs, identifiersOfSpecs] at clear
      have named : unclaimed claimed i.name.toList = i.name.toList :=
        clear.left.unclaimed_names fun j member => by
          unfold Import.mention
          rw [Option.mem_toList.1 member]
          exact List.mem_cons_self
      rw [identifiersOfSpecs, outlineSpecs, unclaimed_append, named]
      exact plants_append (planted_import b i)
        (planted_outlineSpecs b claimed shared rest clear.right) parent m
  | .type extent doc name parameters type :: rest =>
      rw [mentionsOfSpecs, identifiersOfSpecs] at clear
      have named : unclaimed claimed [name] = [name] :=
        clear.left.left.left.unclaimed_names (by simp)
      have inside := plants_append
        (planted_outlineAll b claimed false parameters clear.left.left.right)
        (planted_outline b claimed false type clear.left.right)
      have declared := planted_declaring b .typeDecl name extent name.definition (firstDoc doc shared)
        (isBlankName name.name) fun d => inside d.declaration.id
      rw [identifiersOfSpecs, outlineSpecs, unclaimed_append, unclaimed_append, unclaimed_append,
        named, List.append_assoc [name]]
      exact plants_append declared (planted_outlineSpecs b claimed shared rest clear.right) parent m
  | .value isConstant extent doc names parts :: rest =>
      rw [mentionsOfSpecs, identifiersOfSpecs] at clear
      have given : unclaimed claimed names = names :=
        clear.left.left.unclaimed_names fun _ member => List.mem_map_of_mem member
      have values := planted_names b (if isConstant then .constant else .variable) extent
        (firstDoc doc shared) names (planted_outlineAll b claimed false parts clear.left.right)
      rw [identifiersOfSpecs, outlineSpecs, unclaimed_append, unclaimed_append, given]
      exact plants_append values (planted_outlineSpecs b claimed shared rest clear.right) parent m

end

/-! ## Files -/

theorem grows_packageSymbol (b : Base) (id : PackageId) : m.Grows (packageSymbol b id m).2 :=
  .of_nodes ((nodeless_remember ..).kept m)

/-- **The tree of a file holds every identifier of the file.** -/
theorem planted_outlineFile (b : Base) (f : LoadedFile) (m : Memory)
    (distinct : (f.parsed.identifiers.map (·.mark)).Nodup) :
    let r := outlineFile b f m
    Planted f none m [r.1] f.parsed.identifiers r.2 ∧ r.1.root.kind = .file := by
  intro r
  have clear : Clear [] (mentionsAll f.parsed.declarations)
      (identifiersOfAll f.parsed.declarations) := by
    refine ⟨?_, fun _ _ => List.not_mem_nil⟩
    rw [SourceFile.identifiers, List.map_append] at distinct
    exact distinct.of_append_right
  have declarations := planted_outlineAll (f := f) b [] false f.parsed.declarations clear
  rw [unclaimed_of_free fun _ _ => List.not_mem_nil] at declarations
  have noted (d : Declared) (m : Memory) : Plants f d.declaration.id [] m do
      presetSymbol d.name (← packageSymbol b f.package)
      let path := (b.facts.package f.package).path
      modify fun m => { m with
        clauses := m.clauses.insert path
          ((m.clauses.get? path).getD [] ++ [d.declaration.id]) }
      return [] :=
    .nothing (((grows_packageSymbol b f.package).trans (grows_presetSymbol d.name _)).trans
      (.of_nodes rfl))
  have clause := planted_adding (f := f) .package f.parsed.name f.parsed.extent none f.parsed.doc
    (isBlankName f.parsed.name.name) noted
  have put := put_push m (n := { node := rootNode f m }) rfl
  exact ⟨.node put (by simp) (fun declares => absurd declares Bool.false_ne_true)
    (plants_append clause declarations _ _), rfl⟩

end Checked

/-! ## Parents -/

namespace Tree

theorem root_mem_nodes (t : Tree) : t.root ∈ t.nodes := by
  obtain ⟨root, children⟩ := t
  rw [nodes]
  exact List.mem_cons_self

theorem nodes_subset_nodesOf {t : Tree} {ts : List Tree} (member : t ∈ ts) :
    t.nodes ⊆ nodesOf ts := by
  induction ts with
  | nil => cases member
  | cons first rest ih =>
      rw [nodesOf]
      rcases List.mem_cons.1 member with rfl | later
      · exact List.subset_append_left _ _
      · exact List.Subset.trans (ih later) (List.subset_append_right _ _)

end Tree

namespace Checked

open Relation (ReflTransGen)

/-- A node hangs in another. -/
def Memory.HangsIn (m : Memory) (id parent : NodeId) : Prop :=
  (m.node id).node.parent = some parent

mutual

/-- From every node of a tree whose children say what they hang in, parents lead to the root. -/
theorem leads_root (m : Memory) (t : Tree) (joined : ∀ s, Tree.Within s t → s.Joined)
    (own : ∀ n ∈ t.nodes, (m.node n.id).node = n) {n : Node} (member : n ∈ t.nodes) :
    ReflTransGen m.HangsIn n.id t.root.id := by
  match t with
  | .node root children =>
      rw [Tree.nodes] at member own
      rcases List.mem_cons.1 member with rfl | below
      · exact .refl
      · obtain ⟨c, child, leads⟩ := leads_child m children
          (fun c child s within => joined s (.inside child within))
          (fun n below => own n (List.mem_cons_of_mem _ below)) below
        have there := Tree.nodes_subset_nodesOf child c.root_mem_nodes
        have hangs : (m.node c.root.id).node.parent = some root.id := by
          rw [own c.root (List.mem_cons_of_mem _ there)]
          exact (joined _ (.self _)).hangs c child
        exact leads.tail hangs

theorem leads_child (m : Memory) (ts : List Tree)
    (joined : ∀ t ∈ ts, ∀ s, Tree.Within s t → s.Joined)
    (own : ∀ n ∈ Tree.nodesOf ts, (m.node n.id).node = n) {n : Node}
    (member : n ∈ Tree.nodesOf ts) : ∃ t ∈ ts, ReflTransGen m.HangsIn n.id t.root.id := by
  match ts with
  | [] => cases member
  | t :: rest =>
      rw [Tree.nodesOf] at member own
      rcases List.mem_append.1 member with here | later
      · exact ⟨t, List.mem_cons_self, leads_root m t (joined t List.mem_cons_self)
          (fun n inside => own n (List.mem_append_left _ inside)) here⟩
      · obtain ⟨t', member', leads⟩ := leads_child m rest
          (fun t' member' => joined t' (List.mem_cons_of_mem _ member'))
          (fun n inside => own n (List.mem_append_right _ inside)) later
        exact ⟨t', List.mem_cons_of_mem _ member', leads⟩

end

/-! ## The tree of a syntax tree -/

/-- A tree of nodes in a memory stands for a syntax tree. -/
structure Faithful (f : LoadedFile) (ast : Json) (t : Tree) (m : Memory) : Prop where
  /-- No node stands in two places. -/
  distinct : (t.nodes.map (·.id)).Nodup
  /-- The identifiers that nodes carry are the occurrences in the syntax tree, numbered in the order
  in which they were read: none is missed, and none has two nodes. -/
  identifiers : ∃ js, js.Perm (Report.occurrences ast) ∧
    (t.nodes.filterMap fun n => (m.node n.id).identifier).Perm (Report.marked 0 js)
  /-- Only nodes of identifiers carry some, where they stand and under their names. -/
  stands : ∀ n ∈ t.nodes, ∀ i, (m.node n.id).identifier = some i →
    n.kind = .identifier ∧ n.name = i.name ∧ n.span = f.span i.extent
  /-- Children say what they hang in, and a declaration is named by one of its children. -/
  joined : ∀ s, Tree.Within s t → s.Joined
  /-- Parents lead from every node to that of the file, which hangs in nothing. -/
  parents : ∀ n ∈ t.nodes, ReflTransGen m.HangsIn n.id t.root.id
  root : t.root.kind = .file ∧ (m.node t.root.id).node.parent = none

/-- **Every identifier in the package clause or a declaration of a file has exactly one node in the
tree of the file, whatever the checker recorded.**  Names of declarations are their children, and
all parents lead to the file. -/
theorem outline_faithful (b : Base) (f : LoadedFile) (m : Memory) {ast : Json}
    (formed : Report.FormedFile ast) (parsed : f.parsed = Report.fileOf ast) :
    Faithful f ast (outlineFile b f m).1 (outlineFile b f m).2 := by
  obtain ⟨js, listed, read⟩ := Report.identifiers_fileOf formed
  have distinct : (f.parsed.identifiers.map (·.mark)).Nodup := by
    rw [parsed, read]
    exact Report.nodup_marked 0 js
  obtain ⟨planted, kind⟩ := planted_outlineFile b f m distinct
  have all : Tree.nodesOf [(outlineFile b f m).1] = (outlineFile b f m).1.nodes :=
    List.append_nil _
  have joined := planted.joined _ List.mem_cons_self
  have own : ∀ n ∈ (outlineFile b f m).1.nodes, ((outlineFile b f m).2.node n.id).node = n :=
    fun n member => (planted.nodes n (all ▸ member)).2.2
  refine ⟨all ▸ planted.distinct, ⟨js, listed, ?_⟩, all ▸ planted.stands,
    joined, fun n member => leads_root _ _ joined own member, kind, ?_⟩
  · rw [← read, ← parsed, ← all]
    exact planted.carries
  · rw [own _ (Tree.root_mem_nodes _)]
    exact planted.hangs _ List.mem_cons_self

section Nested

/-- A piece of syntax with its parts. -/
def piece (form : String) (parts : List (String × Json)) : Json :=
  .obj [("k", form), ("c", .arr (parts.map fun (field, part) => .arr [.str field, part]))]

/-- An identifier that declares an entity, if it declares one. -/
def ident (name : String) (definition : Json := .null) : Json :=
  .obj [("k", "Ident"), ("n", name), ("def", definition)]

/-- An import; a generic type that embeds another; a method of it with a label, a type switch that
names its subject, and a function literal with a variable. -/
def nestedFile : Json :=
  piece "File" [("Name", ident "p"),
    ("Decls", piece "GenDecl" [("Specs", piece "ImportSpec" [("Name", ident "q" (.int 8)),
      ("Path", piece "BasicLit" [])])]),
    ("Decls", piece "GenDecl" [("Specs", piece "TypeSpec" [("Name", ident "Box" (.int 0)),
      ("TypeParams", piece "FieldList" [("List", piece "Field" [("Names", ident "T" (.int 1)),
        ("Type", ident "any")])]),
      ("Type", piece "StructType" [("Fields", piece "FieldList" [("List", piece "Field" [
        ("Type", piece "StarExpr" [("X", piece "IndexExpr" [("X", ident "Base" (.int 2)),
          ("Index", ident "T")])])])])])])]),
    ("Decls", piece "FuncDecl" [
      ("Recv", piece "FieldList" [("List", piece "Field" [("Names", ident "b" (.int 3)),
        ("Type", piece "IndexExpr" [("X", ident "Box"), ("Index", ident "T")])])]),
      ("Name", ident "Each" (.int 4)),
      ("Type", piece "FuncType" [("Params", piece "FieldList" [("List", piece "Field" [
        ("Names", ident "f" (.int 5)), ("Type", ident "any")])])]),
      ("Body", piece "BlockStmt" [("List", piece "LabeledStmt" [("Label", ident "again" (.int 6)),
        ("Stmt", piece "TypeSwitchStmt" [
          ("Assign", piece "AssignStmt" [("Lhs", ident "v"),
            ("Rhs", piece "TypeAssertExpr" [("X", ident "f")])]),
          ("Body", piece "BlockStmt" [("List", piece "CaseClause" [("List", ident "int"),
            ("Body", piece "ExprStmt" [("X", piece "FuncLit" [("Type", piece "FuncType" []),
              ("Body", piece "BlockStmt" [("List", piece "AssignStmt" [
                ("Lhs", ident "x" (.int 7)), ("Rhs", ident "v")])])])]),
            ("Body", piece "BranchStmt" [("Label", ident "again")])])])])])])])]

/-- The file with that syntax. -/
def nestedLoaded : LoadedFile :=
  { path := "/p/p.go", packagePath := "p", package := 0, parsed := Report.fileOf nestedFile
    source := .unreadable }

/-- Twenty identifiers have twenty nodes. -/
theorem outline_faithful_nested :
    Report.FormedFile nestedFile ∧ (Report.occurrences nestedFile).length = 20 ∧
      Faithful nestedLoaded nestedFile (outlineFile {} nestedLoaded {}).1
        (outlineFile {} nestedLoaded {}).2 :=
  ⟨by decide +kernel, by decide +kernel,
    outline_faithful {} nestedLoaded {} (by decide +kernel) (by simp only [nestedLoaded])⟩

end Nested

end Checked
end SymbolAtlas
