/-
# SymbolAtlas.Proofs.Session.Questions -- the questions of a session

Each change of a session asks the oracle a few questions, and the memory that it leaves is
the one after them (`Step.later`).  Only the classification of an alias asks for its target;
all else that is asked until a symbol has its name is asked quietly
(`Oracle.hushed_named`).
-/
import SymbolAtlas.Proofs.Session.Visits

set_option autoImplicit false

namespace SymbolAtlas

section Memory

variable {μ : Type} {o : Oracle μ}

/-- Questions one after the other, none of them about the target of an alias. -/
abbrev Oracle.Hushed (o : Oracle μ) : μ → μ → Prop := Relation.ReflTransGen o.Quiet

/-- One question. -/
inductive Oracle.Asked (o : Oracle μ) : μ → μ → Prop where
  | quiet {m m' : μ} (h : o.Quiet m m') : Asked o m m'
  | resolveAlias (sym : Symbol) (m : μ) : Asked o m (o.resolveAlias sym m).2

/-- Questions one after the other. -/
abbrev Oracle.Later (o : Oracle μ) : μ → μ → Prop := Relation.ReflTransGen o.Asked

theorem Oracle.Hushed.later {m m' : μ} (h : o.Hushed m m') : o.Later m m' :=
  Relation.ReflTransGen.mono (fun _ _ h => .quiet h) _ _ h

/-! ## What is asked until a symbol has its name -/

/-- Naming asks for owners only. -/
theorem Oracle.hushed_derive {resolve : Option NodeId → Namer → Namer.Climbing μ (Resolved × Namer)}
    (spec : ∀ id n m, o.Hushed m (resolve id n m).2) (id : NodeId) (node : Node) (n : Namer)
    (m : μ) : o.Hushed m (n.derive o resolve id node m).2 := by
  have owner : o.Quiet m (o.owner id m).2 := .owner id m
  rw [Namer.derive_eq]
  split
  · have above := spec (o.owner id m).1 n (o.owner id m).2
    split
    · rename_i called
      rw [called] at above
      exact .head owner above
    · rename_i called
      rw [called] at above
      exact .head owner above
  · split
    · exact .refl
    · exact spec _ n m
    · exact .head owner (spec _ n _)
    · exact .refl
    · exact .refl
    · exact .refl

theorem Oracle.hushed_resolveWith (fuel : Nat) (id : Option NodeId) (n : Namer) (m : μ) :
    o.Hushed m (Namer.resolveWith o fuel id n m).2 := by
  induction fuel generalizing id n m with
  | zero =>
      cases id with
      | none => exact .refl
      | some id => exact .refl
  | succ fuel ih =>
      cases id with
      | none => exact .refl
      | some id =>
          rw [Namer.resolveWith_succ]
          cases n.memo.get? id with
          | some r => exact .refl
          | none =>
              have derived := o.hushed_derive ih id (o.node id m) n m
              simp only
              split
              · rename_i called
                rwa [called] at derived
              · rename_i called
                rwa [called] at derived

theorem Oracle.hushed_nameFirst? (declarations : List NodeId) (n : Namer) (m : μ) :
    o.Hushed m (n.nameFirst? o declarations m).2 := by
  cases declarations with
  | nil => exact .refl
  | cons first rest =>
      have resolved := o.hushed_resolveWith (o.size + 1) (some first) n m
      show o.Hushed m (n.nameOf? o (some first) m).2
      rw [Namer.nameOf?_eq]
      split
      all_goals
        rename_i called
        rwa [called] at resolved

theorem Oracle.hushed_declarationsOf (sym : Symbol) (use : Option NodeId) (v : Variant) (m : μ) :
    o.Hushed m (v.declarationsOf o sym use m).2 := by
  unfold Variant.declarationsOf
  split
  · exact .refl
  · exact .single (.declarationsOf sym m)

theorem Oracle.hushed_ofMember (sym : Symbol) (m : μ) :
    o.Hushed m (Variant.ofMember o sym m).2 := by
  have container : o.Hushed m (o.containerOf sym m).2 := .single (.containerOf sym m)
  rw [Variant.ofMember_eq]
  split
  · split
    · rename_i container' m' asked
      rw [asked] at container
      exact container.tail (.baseMembers container' sym.name m')
    · rename_i m' asked
      rw [asked] at container
      exact container
  · exact .refl

/-- Classifying asks for the target of an alias, and of nothing else. -/
theorem Oracle.hushed_classify (sym : Symbol) (use : Option NodeId) (m : μ) :
    o.Hushed (if sym.flags.aliasing then (o.resolveAlias sym m).2 else m)
      (Variant.classify o sym use m).2 := by
  have composite : o.Hushed m (o.compositeMembers sym use m).2 :=
    .single (.compositeMembers sym use m)
  rw [Variant.classify_eq]
  split
  · exact .refl
  · split
    · split
      · rename_i members m' asked
        rw [asked] at composite
        exact composite
      · rename_i m' asked
        rw [asked] at composite
        split
        · exact composite
        · exact composite.trans (o.hushed_ofMember sym m')
    · exact o.hushed_ofMember sym m

theorem Oracle.later_classify (sym : Symbol) (use : Option NodeId) (m : μ) :
    o.Later m (Variant.classify o sym use m).2 := by
  have asked := (o.hushed_classify sym use m).later
  split at asked
  · exact .head (.resolveAlias sym m) asked
  · exact asked

/-- **What is asked until a symbol has its name**: the target, if it is an alias, and then
only what is quiet. -/
theorem Oracle.hushed_named {sym : Symbol} {use : Option NodeId} {v : Variant}
    {declarations : List NodeId} {name : SymbolName} {n namer : Namer} {m m₁ m₂ m₃ : μ}
    (classified : (v, m₁) = Variant.classify o sym use m)
    (declared : (declarations, m₂) = v.declarationsOf o sym use m₁)
    (called : (.ok (name, namer), m₃) = n.nameFirst? o declarations m₂) :
    o.Hushed (if sym.flags.aliasing then (o.resolveAlias sym m).2 else m) m₃ := by
  have first := o.hushed_classify sym use m
  have second := o.hushed_declarationsOf sym use v m₁
  have third := o.hushed_nameFirst? declarations n m₂
  rw [← classified] at first
  rw [← declared] at second
  rw [← called] at third
  exact first.trans (second.trans third)

end Memory

namespace Session

variable {μ ω : Type} {c : Context μ ω}

/-! ## The memory after a step -/

theorem Growth.later {s s' : State μ ω} (h : Growth c s s') :
    c.oracle.Later s.memory s'.memory := by
  cases h with
  | @enrolled sym use v declarations name namer m₁ m₂ m₃ fresh classified declared called =>
      have named := (c.oracle.hushed_named classified declared called).later
      split at named
      · exact .head (.resolveAlias sym s.memory) named
      · exact named
  | based => exact .refl
  | composed => exact .refl

/-- A step asks questions. -/
theorem Step.later {s s' : State μ ω} (step : Step c s s') :
    c.oracle.Later s.memory s'.memory := by
  cases step with
  | detail step =>
      cases step with
      | asked quiet => exact .single (.quiet quiet)
      | _ => exact .refl
  | growth step => exact step.later
  | usage step =>
      obtain ⟨_, _, _, _, _, rfl⟩ := step.shape
      exact .refl
  | ending step =>
      obtain ⟨_, _, _, _, _, rfl⟩ := step.shape
      exact .refl
  | opened | turned | passed => exact .refl

theorem Steps.later {s s' : State μ ω} (steps : Steps c s s') :
    c.oracle.Later s.memory s'.memory := by
  induction steps with
  | refl => exact .refl
  | tail _ last ih => exact ih.trans last.later

end Session
end SymbolAtlas
