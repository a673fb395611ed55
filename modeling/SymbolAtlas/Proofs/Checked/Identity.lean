/-
# SymbolAtlas.Proofs.Checked.Identity -- a symbol for each key, a key for each symbol

Entities, packages and guards of type switches have keys of four shapes.  The word before the first
bar tells the shapes apart, and within each shape the parts can be read back, whatever the files
are called; so the keys of two things are the same exactly if the things agree in all that keys
mention (`Keyed.key_eq_iff`).

The memory keeps the symbol that it first made for a key (`Memory.Told.symbols`).  Whatever a loaded
program is asked in between, an entity that is asked for again has the symbol it had, and so has
every instantiation of it; entities whose declarations differ in anything that keys mention have
different symbols (`keys_faithful`).
-/
import SymbolAtlas.Proofs.Checked.Keys
import SymbolAtlas.Proofs.Checked.Selection

set_option autoImplicit false

namespace SymbolAtlas.Checked

variable {b : Base} {m m' m'' : Memory}

/-! ## Keys -/

/-- What has a key: an entity with the clause that declares it, a package, and the guard of a type
switch. -/
inductive Keyed where
  | entity (e : Entity) (clause : Option Nat)
  | package (path : String)
  | guard (path name : String) (place : Place)

namespace Keyed

variable {x y : Keyed}

/-- The key. -/
def key (b : Base) : Keyed → String
  | .entity e clause => b.entityKey e clause
  | .package path => packageKey path
  | .guard path name place => guardKey path name place

/-- Names and paths of packages contain nothing that separates parts. -/
def Legible (b : Base) : Keyed → Prop
  | .entity e _ => b.Legible e
  | .package path => '|' ∉ path.toList
  | .guard path name _ => '|' ∉ path.toList ∧ '|' ∉ name.toList

/-- Things of one kind that agree in all that keys mention. -/
inductive Alike (b : Base) : Keyed → Keyed → Prop where
  | entity {e e' : Entity} {clause clause' : Option Nat} (alike : b.Alike e clause e' clause') :
      Alike b (.entity e clause) (.entity e' clause')
  | package (path : String) : Alike b (.package path) (.package path)
  | guard (path name : String) {place place' : Place} (file : place.file = place'.file)
      (line : place.line = place'.line) (column : place.column = place'.column) :
      Alike b (.guard path name place) (.guard path name place')

theorem render_congr {p p' : Place} (file : p.file = p'.file) (line : p.line = p'.line)
    (column : p.column = p'.column) : p.render = p'.render := by
  simp only [Place.render, file, line, column]

theorem Alike.key_eq (alike : Alike b x y) : x.key b = y.key b := by
  cases alike with
  | package path => rfl
  | guard path name file line column =>
      simp only [key, guardKey, render_congr file line column]
  | entity alike =>
      cases alike with
      | predeclared first second name => simp only [key, Base.entityKey, first, second, name]
      | declared first second tag path name place clause =>
          simp only [key, Base.entityKey, first, second, tag, path, name,
            render_congr place.1 place.2.1 place.2.2, clause]

theorem toList_packageKey (path : String) :
    (packageKey path).toList = "package".toList ++ '|' :: path.toList := by
  simp [packageKey]

theorem toList_guardKey (path name : String) (place : Place) :
    (guardKey path name place).toList = "guard".toList ++ '|' :: (path.toList ++
      '|' :: (name.toList ++ '|' :: (place.render.toList ++ clauseMark none))) := by
  simp [guardKey, clauseMark]

theorem packageKey_ne_guardKey (path other name : String) (place : Place) :
    packageKey path ≠ guardKey other name place := by
  intro same
  have same := congrArg String.toList same
  rw [toList_packageKey, toList_guardKey] at same
  exact absurd (cut_front (by decide) (by decide) same).1 (by decide)

theorem packageKey_inj {path path' : String} (same : packageKey path = packageKey path') :
    path = path' := by
  have same := congrArg String.toList same
  rw [toList_packageKey, toList_packageKey] at same
  exact String.toList_injective (cut_front (by decide) (by decide) same).2

theorem guardKey_inj {path path' name name' : String} {place place' : Place}
    (legible : '|' ∉ path.toList ∧ '|' ∉ name.toList)
    (legible' : '|' ∉ path'.toList ∧ '|' ∉ name'.toList)
    (same : guardKey path name place = guardKey path' name' place') :
    path = path' ∧ name = name' ∧ place.file = place'.file ∧ place.line = place'.line ∧
      place.column = place'.column := by
  have same := congrArg String.toList same
  rw [toList_guardKey, toList_guardKey] at same
  obtain ⟨-, same⟩ := cut_front (by decide) (by decide) same
  obtain ⟨first, same⟩ := cut_front legible.1 legible'.1 same
  obtain ⟨second, same⟩ := cut_front legible.2 legible'.2 same
  obtain ⟨place, -⟩ := place_inj same
  exact ⟨String.toList_injective first, String.toList_injective second, place⟩

/-- **Keys are the same exactly if all that they mention is.** -/
theorem key_eq_iff (legible : x.Legible b) (legible' : y.Legible b) :
    x.key b = y.key b ↔ Alike b x y := by
  refine ⟨fun same => ?_, Alike.key_eq⟩
  cases x with
  | entity e clause =>
      cases y with
      | entity e' clause' => exact .entity (alike_of_entityKey legible legible' same)
      | package path' => exact absurd same (entityKey_ne_packageKey b e clause path')
      | guard path' name' place' => exact absurd same (entityKey_ne_guardKey b e clause _ _ _)
  | package path =>
      cases y with
      | entity e' clause' => exact absurd same.symm (entityKey_ne_packageKey b e' clause' path)
      | package path' =>
          obtain rfl := packageKey_inj same
          exact .package path
      | guard path' name' place' => exact absurd same (packageKey_ne_guardKey path _ _ _)
  | guard path name place =>
      cases y with
      | entity e' clause' => exact absurd same.symm (entityKey_ne_guardKey b e' clause' _ _ _)
      | package path' => exact absurd same.symm (packageKey_ne_guardKey path' _ _ _)
      | guard path' name' place' =>
          obtain ⟨rfl, rfl, file, line, column⟩ := guardKey_inj legible legible' same
          exact .guard path name file line column

end Keyed

/-! ## Symbols -/

/-- The key of the entity that a symbol is asked for: that of its origin. -/
def Base.symbolKey (b : Base) (m : Memory) (id : EntityId) : String :=
  b.entityKey (b.facts.entity (b.facts.origin id)) (m.cases.get? (b.facts.origin id))

theorem remember_of_known {key : String} {known : KnownSymbol}
    (here : m.symbols.get? key = some known) (name : String) (flags : SymbolFlags)
    (meaning : Meaning) : remember key name flags meaning m = (known.symbol, m) := by
  rw [remember_eq, here]

theorem known_remember (key name : String) (flags : SymbolFlags) (meaning : Meaning) (m : Memory) :
    ∃ known, (remember key name flags meaning m).2.symbols.get? key = some known ∧
      known.symbol = (remember key name flags meaning m).1 := by
  rw [remember_eq]
  cases here : m.symbols.get? key with
  | some known => exact ⟨known, here, rfl⟩
  | none => exact ⟨_, Table.get?_insert_self _ _ _, rfl⟩

/-- A symbol that was asked for is known by its key. -/
theorem known_symbolFor (b : Base) (id : EntityId) (m : Memory) :
    ∃ known, (symbolFor b id m).2.symbols.get? (b.symbolKey m id) = some known ∧
      known.symbol = (symbolFor b id m).1 :=
  known_remember ..

theorem symbolFor_of_known {id : EntityId} {known : KnownSymbol}
    (here : m.symbols.get? (b.symbolKey m id) = some known) :
    (symbolFor b id m).1 = known.symbol :=
  congrArg Prod.fst (remember_of_known here _ _ _)

/-- **Whatever is asked in between**, two requests are answered with one symbol exactly if the keys
are the same. -/
theorem symbolFor_eq_iff (sound : m.Sound b) {id id' : EntityId}
    (told : (symbolFor b id m).2.Told b m') :
    (symbolFor b id' m').1 = (symbolFor b id m).1 ↔ b.symbolKey m id' = b.symbolKey m id := by
  obtain ⟨asked, -, key⟩ := answers_symbolFor sound id
  obtain ⟨-, -, key'⟩ := answers_symbolFor told.sound id'
  have cases_ : m'.cases = m.cases := told.cases.trans asked.cases
  have own : b.symbolKey m' id' = b.symbolKey m id' := by
    rw [Base.symbolKey, cases_, Base.symbolKey]
  constructor
  · intro same
    rw [← own]
    exact key'.symm.trans ((congrArg Symbol.key same).trans key)
  · intro same
    obtain ⟨known, here, symbol⟩ := known_symbolFor b id m
    have there := told.symbols here
    rw [← same, ← own] at there
    rw [symbolFor_of_known there, symbol]

/-! ## Programs -/

/-- A question to a program, or a request for the symbol of an entity or a package. -/
inductive Program.Inquires (p : Program) : Memory → Memory → Prop where
  | asked {m m' : Memory} (question : p.oracle.Asked m m') : Inquires p m m'
  | entity (id : EntityId) (m : Memory) : Inquires p m (symbolFor p.base id m).2
  | package (id : PackageId) (m : Memory) : Inquires p m (packageSymbol p.base id m).2

/-- Questions and requests one after the other. -/
abbrev Program.Inquired (p : Program) : Memory → Memory → Prop := Relation.ReflTransGen p.Inquires

theorem told_inquired {p : Program} (sound : m.Sound p.base) (later : p.Inquired m m') :
    m.Told p.base m' := by
  induction later with
  | refl => exact .refl sound
  | tail _ last ih =>
      cases last with
      | asked question => exact ih.trans (Program.told_asked ih.sound question)
      | entity id => exact ih.trans (answers_symbolFor ih.sound id).told
      | package id => exact ih.trans (answers_packageSymbol ih.sound id).told

/-- **Keys and symbols tell apart what they should, and nothing else.**  If names and paths of
packages contain no bar, keys are the same exactly if the things are of one kind and agree in all
that keys mention.  In a loaded program, at any two times, an entity and an instantiation with that
origin have one symbol, and entities with legible origins have one symbol exactly if their origins
are alike. -/
theorem keys_faithful (b : Base) :
    (∀ x y : Keyed, x.Legible b → y.Legible b → (x.key b = y.key b ↔ Keyed.Alike b x y)) ∧
      ∀ keeps p, Program.load b keeps = .ok p →
        ∀ m, p.Inquired p.memory m → ∀ id m', p.Inquired (symbolFor b id m).2 m' → ∀ id',
          (b.facts.origin id' = b.facts.origin id →
            (symbolFor b id' m').1 = (symbolFor b id m).1) ∧
          (b.Legible (b.facts.entity (b.facts.origin id)) →
            b.Legible (b.facts.entity (b.facts.origin id')) →
              ((symbolFor b id' m').1 = (symbolFor b id m).1 ↔
                b.Alike (b.facts.entity (b.facts.origin id')) (m.cases.get? (b.facts.origin id'))
                  (b.facts.entity (b.facts.origin id)) (m.cases.get? (b.facts.origin id)))) := by
  refine ⟨fun x y legible legible' => Keyed.key_eq_iff legible legible', ?_⟩
  intro keeps p loaded m early id m' later id'
  obtain ⟨rfl, built⟩ := built_of_load loaded
  have sound := (told_inquired built.sound early).sound
  have asked := (answers_symbolFor sound id).told
  have same : (symbolFor p.base id' m').1 = _ ↔ _ :=
    symbolFor_eq_iff sound (told_inquired asked.sound later)
  refine ⟨fun origin => same.2 (by rw [Base.symbolKey, origin, Base.symbolKey]), ?_⟩
  intro legible legible'
  rw [same]
  constructor
  · intro key
    exact alike_of_entityKey legible' legible key
  · intro alike
    exact (Keyed.Alike.entity alike).key_eq

/-- A method of a generic type with an instantiation of it, and a variable of a clause beside a
guard, in files whose names contain all that separates parts of keys. -/
def genericBase : Base where
  root := "/m"
  facts := {
    loaded := [{ id := "m", path := "m", package := some 0, files := [("/m/a|b:1#case2.go", {})] }]
    packages := #[{ path := "m", name := "m" }]
    entities := #[
      { kind := .function none (some {}), name := "Get", package := some 0
        place := some { file := "/m/a|b:1#case2.go", line := 3, column := 4 } },
      { kind := .function (some 0) (some {}), name := "Get", package := some 0
        place := some { file := "/m/a|b:1#case2.go", line := 3, column := 4 } },
      { kind := .variable none false, name := "x", package := some 0
        place := some { file := "/m/a|b:1#case2.go", line := 3, column := 4 } }] }

theorem keys_faithful_generic :
    ∃ p, Program.load genericBase (fun _ => true) = .ok p ∧
      Keyed.Legible genericBase (.entity (genericBase.facts.entity 2) (some 1)) ∧
      Keyed.Legible genericBase (.guard "m" "x" { file := "/m/a|b", line := 1, column := 2 }) ∧
      Keyed.key genericBase (.entity (genericBase.facts.entity 2) (some 1)) ≠
        Keyed.key genericBase (.guard "m" "x" { file := "/m/a|b", line := 1, column := 2 }) ∧
      (symbolFor genericBase 1 (symbolFor genericBase 0 p.memory).2).1 =
        (symbolFor genericBase 0 p.memory).1 ∧
      (symbolFor genericBase 2 (symbolFor genericBase 0 p.memory).2).1 ≠
        (symbolFor genericBase 0 p.memory).1 := by
  have wants : genericBase.Wants (fun _ => true) "/m/a|b:1#case2.go" :=
    ⟨by decide +kernel, rfl, _, List.mem_singleton_self _, rfl, by decide +kernel, by simp⟩
  have legible (id : EntityId) (known : id = 0 ∨ id = 2) :
      genericBase.Legible (genericBase.facts.entity (genericBase.facts.origin id)) := by
    rcases known with rfl | rfl
    · refine ⟨by decide, ?_⟩
      rintro _ ⟨⟩
      decide
    · refine ⟨by decide, ?_⟩
      rintro _ ⟨⟩
      decide
  obtain ⟨p, loaded⟩ := exists_load wants
  obtain ⟨keys, symbols⟩ := keys_faithful genericBase
  have variable_ : Keyed.Legible genericBase (.entity (genericBase.facts.entity 2) (some 1)) :=
    legible 2 (.inr rfl)
  have guard : Keyed.Legible genericBase
      (.guard "m" "x" { file := "/m/a|b", line := 1, column := 2 }) := ⟨by decide, by decide⟩
  have asked := symbols _ p loaded p.memory .refl 0 _ .refl
  refine ⟨p, loaded, variable_, guard, fun same => ?_, (asked 1).1 rfl, fun same => ?_⟩
  · cases (keys _ _ variable_ guard).1 same
  · rcases ((asked 2).2 (legible 0 (.inl rfl)) (legible 2 (.inr rfl))).1 same with
      ⟨none, -, -⟩ | ⟨-, -, tag, -, -, -, -⟩
    · cases none
    · exact absurd tag (by decide)

end SymbolAtlas.Checked
