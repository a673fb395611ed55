/-
# SymbolAtlas.Proofs.Session.Labels -- the monikers that a program gives

A symbol carries the moniker of its own declarations and those under which other files publish
it.  Whether it gets the latter could depend on the order of the files, since a symbol that is
frozen gets none.  But before the last file is closed only local symbols are frozen
(`open_of_titled`), so a global symbol gets them all: its monikers are those that the program
gives it (`Portrait.Labels`, `monikers_run`).
-/
import SymbolAtlas.Proofs.Session.Accounts
import SymbolAtlas.Proofs.Session.Confinement
import SymbolAtlas.Proofs.Session.Publication

set_option autoImplicit false

namespace SymbolAtlas

/-! ## What a program publishes -/

namespace Portrait

variable {π : Type} (P : Portrait π)

/-- The identifier of the moniker that the declarations of a symbol agree on, if it is exported. -/
def exportedAs (locate : Locator) (key : String) : Option String :=
  (P.exported key).bind fun segments =>
    (((P.declarations key).mapM fun x => locate (P.face x).file).bind Location.agree).map
      fun location => Moniker.identifierOf location.path segments

/-- The identifier of the moniker of a symbol that is addressed through its own declarations. -/
def primary (n₀ : Namer) (locate : Locator) (key : String) : Option String :=
  match P.outline key with
  | .standard | .method .. =>
      if (P.titleOf n₀ key).isNone || (P.declarations key).isEmpty then none
      else P.exportedAs locate key
  | _ => none

/-- The target of an alias, and the identifier of the moniker under which a file publishes it;
the empty name is the target's own. -/
def publishedBy (locate : Locator) (path name key : String) : Option (String × String) :=
  match P.outline key with
  | .aliasOf (some target) => (locate path).map fun location =>
      (target, Moniker.identifierOf location.path [if name = "" then P.label target else name])
  | _ => none

/-- What a declaration publishes in its file. -/
def publication (locate : Locator) (x : π) : Option (String × String) :=
  (P.published x).bind fun key => (P.publishes x).bind fun name =>
    P.publishedBy locate (P.face x).file name key

/-- A text identifies a moniker of a symbol, if the run visits these places. -/
def Labels (n₀ : Namer) (locate : Locator) (visited : π → Prop) (key text : String) : Prop :=
  P.primary n₀ locate key = some text ∨ ∃ x, visited x ∧ P.publication locate x = some (key, text)

end Portrait

section Places

variable {μ π : Type} {o : Oracle μ} {start m m' : μ} {P : Portrait π} {r : Recall μ π}

/-- What nodes say about themselves is what stands at their places. -/
theorem map_face_of_reads (portrays : o.Portrays start P r) {ids : List NodeId} {places : List π}
    (read : ids.map (r.reads m) = places.map some) :
    ids.map (fun id => (o.node id m).face) = places.map P.face := by
  induction ids generalizing places with
  | nil =>
      obtain rfl := List.map_eq_nil_iff.1 read.symm
      rfl
  | cons id ids ih =>
      cases places with
      | nil => cases read
      | cons x places =>
          obtain ⟨first, rest⟩ := List.cons.inj read
          exact congrArg₂ List.cons (portrays.face first) (ih rest)

/-- Once the declarations of a symbol were told, its exported names are the same whenever they
are asked for. -/
theorem exportPath_later (portrays : o.Portrays start P r) {sym : Symbol} {m₁ : μ}
    (declared : (o.declarationsOf sym m₁).1 ≠ []) (told : o.Later (o.declarationsOf sym m₁).2 m)
    (later : o.Later m m') : (o.exportPath sym m').1 = (o.exportPath sym m).1 := by
  induction later with
  | refl => rfl
  | tail before last ih =>
      exact (portrays.exportPath_stays declared (told.trans before) last).trans ih

end Places

namespace Session

variable {μ ω π : Type} {c : Context μ ω} {memory m asked : μ} {output : ω} {P : Portrait π}
  {r : Recall μ π}

/-! ## The moniker of the declarations -/

theorem locations?_eq (nodes : List Node) :
    locations? c nodes = (nodes.map Node.face).mapM fun face => c.locate face.file := by
  induction nodes with
  | nil => rfl
  | cons n rest ih =>
      rw [locations?, ih, List.map_cons, List.mapM_cons]
      rfl

/-- **The moniker that a symbol gets with its node** is that of its declarations in the program. -/
theorem primary_eq (anchored : c.oracle.Anchored memory) (portrays : c.oracle.Portrays memory P r)
    {key : String} {n : SymbolNode} (portrayed : n.Portrayed P r c.namer m key)
    (declared : n.Declared c memory asked) (later : c.oracle.Later asked m) :
    (n.primary c asked).map (·.identifier) = P.primary c.namer c.locate key := by
  obtain ⟨use, v, m₁, m₂, variant, start, chosen, told⟩ := declared
  have outline : v.outline = P.outline key := by
    have same := portrayed.outline
    rw [variant] at same
    exact Option.some.inj same
  have exported : v.isAtUse = false →
      (n.exported c asked).map (·.identifier) =
        if (P.titleOf c.namer key).isNone || (P.declarations key).isEmpty then none
        else P.exportedAs c.locate key := by
    intro own
    have read := portrayed.declarations (outline ▸ v.isAtUse_outline.trans own)
    have empty : n.declarations.isEmpty = (P.declarations key).isEmpty := by
      rw [← List.isEmpty_map (f := r.reads m), read, List.isEmpty_map]
    unfold SymbolNode.exported Portrait.exportedAs
    rw [portrayed.isLocal, empty]
    split
    · rfl
    rename_i some_
    unfold Variant.declarationsOf at chosen
    rw [if_neg (by simp [own])] at chosen
    obtain ⟨same, rfl⟩ := Prod.mk.inj chosen
    have declared : (c.oracle.declarationsOf n.symbol m₁).1 ≠ [] := by
      rw [← same]
      intro none
      rw [none] at empty
      simp [← empty] at some_
    have path : (c.oracle.exportPath n.symbol asked).1 = P.exported key := by
      rw [← exportPath_later portrays declared told later, portrays.exportPath portrayed.known,
        portrayed.own]
    have question : c.oracle.Later asked (c.oracle.exportPath n.symbol asked).2 :=
      .single (.quiet (.exportPath n.symbol asked))
    have nodes : n.declarations.map (c.oracle.node · (c.oracle.exportPath n.symbol asked).2) =
        n.declarations.map (c.oracle.node · m) := by
      refine List.map_congr_left fun id member => ?_
      have shown := Oracle.Shown.declared start (same ▸ member)
      exact (anchored.node_later shown (told.trans question)).trans
        (anchored.node_later shown (told.trans later)).symm
    have faces := map_face_of_reads portrays read
    simp only [path, nodes, locations?_eq, List.map_map, Function.comp_def, faces]
    simp only [List.mapM_map, Function.comp_def, Option.map_bind, Option.map_map]
  unfold SymbolNode.primary Portrait.primary
  rw [variant, ← outline]
  cases v with
  | standard => exact exported rfl
  | method => exact exported rfl
  | aliasOf | composite | transient => rfl

/-! ## The monikers of publications -/

/-- Documents know where the locator finds their files. -/
def State.Located (c : Context μ ω) (s : State μ ω) : Prop :=
  s.documents.All fun path d => d.location = c.locate path

theorem Step.located {s s' : State μ ω} (step : Step c s s') (h : s.Located c) : s'.Located c := by
  cases step with
  | detail step =>
      cases step with
      | asked | counted | sited | attached | hovered | joined | awaited => exact h
      | began => exact Table.All.insert h rfl
      | defined | confined => exact h.modify fun _ _ located => located
  | growth step => cases step <;> exact h
  | usage step =>
      cases step with
      | marked => exact h.modify fun _ _ located => located
      | @referred key path n d name node open_ document writable =>
          obtain ⟨_, shape⟩ := State.foldl_forwarded_eq path d.id (s.lastId + 1)
            (n.forwards key) (s.referred c key path n d name)
          rw [shape]
          exact h.modify fun _ _ located => located
  | ending step =>
      cases step with
      | @symbol key n node open_ =>
          obtain ⟨_, _, _, shape⟩ := s.emittedAll_eq (c := c) (n.items.map .item)
          rw [State.symbolEnded, shape]
          exact h
      | @document path d document writable frozen =>
          obtain ⟨_, _, _, shape⟩ := s.documentEnded_eq (c := c) path d
          rw [shape]
          exact h.modify fun _ _ located => located
  | opened => exact Table.All.insert h rfl
  | turned | passed => exact h

theorem Steps.located {s s' : State μ ω} (steps : Steps c s s') (h : s.Located c) :
    s'.Located c := by
  induction steps with
  | refl => exact h
  | tail _ last ih => exact last.located ih

/-- What a document publishes of an alias is what the program says. -/
theorem targetMoniker_eq (portrays : c.oracle.Portrays memory P r) {n₀ : Namer} {path : String}
    {d : DocumentNode} {key : String} {n : SymbolNode} (located : d.location = c.locate path)
    (portrayed : n.Portrayed P r n₀ m key) (name : String) :
    (targetMoniker c d name n).map (fun given => (given.1, given.2.identifier)) =
      P.publishedBy c.locate path name key := by
  obtain ⟨v, variant, outline⟩ := Option.map_eq_some_iff.1 portrayed.outline
  unfold targetMoniker Portrait.publishedBy
  rw [variant, ← outline, located]
  rcases v with _ | ⟨_ | target⟩ | _ | _ | _
  case aliasOf.some =>
    obtain ⟨label, -⟩ := portrays.symbol (portrayed.links _ variant target
      (by simp [Variant.links]))
    simp only [Variant.outline, Option.map_some, Option.map_map, ← label]
    rfl
  all_goals rfl

/-- **What is published when a declaration is left** is what the program says. -/
theorem publication_eq (portrays : c.oracle.Portrays memory P r) {n₀ : Namer} {n : Node} {x : π}
    {s s' : State μ ω} {d : DocumentNode} (stands : r.Stands c.oracle memory n x)
    (later : c.oracle.Later memory s.memory) (effect : (Moment.leaving n).Effect c s s')
    (nodes : s'.symbols.All fun key node => node.Portrayed P r n₀ s'.memory key)
    (document : s.current.bind s.documents.get? = some d)
    (located : d.location = c.locate n.file) :
    (publication c n s s').map (fun given => (given.1, given.2.identifier)) =
      P.publication c.locate x := by
  have published := stands.published portrays later
  have name := portrays.exportAlias (stands.reads _ later)
  have file : n.file = (P.face x).file := congrArg Face.file (stands.face portrays)
  unfold publication Portrait.publication
  rw [← published, ← name, ← file]
  cases subject : symbolPublished c.oracle n s.memory with
  | none => rfl
  | some sym =>
      have visit : Visit c s s' (some sym) := subject ▸ effect
      obtain ⟨t, resolved, after⟩ := visit
      have core : s'.coreAt = t.coreAt := after.elim (fun details => details.core) (·.core)
      obtain ⟨node, here⟩ := (kept_of_core core).has resolved.has
      cases answer : (c.oracle.exportAlias n.id s.memory).1 with
      | none => rfl
      | some name =>
          have target := targetMoniker_eq portrays located (nodes _ node here) name
          simp only [document, here, Option.bind_some, Option.map_some, Option.bind_eq_bind]
          exact target

/-! ## Runs -/

section Performed

variable {first rest : List Moment} {s s' t : State μ ω}

/-- **A symbol that has a name in the program is open** until the last file is closed. -/
theorem open_of_titled (anchored : c.oracle.Anchored memory)
    (portrays : c.oracle.Portrays memory P r) (apart : P.Apart c.namer SymbolName.render)
    (split : schedule c.oracle.files = first ++ rest)
    (course : Course c first ((State.start c memory output).opened c) s) (ok : s.failure = none)
    {key : String} (titled : (P.titleOf c.namer key).isSome = true) : s.endedAt key = false := by
  by_contra ended
  rw [Bool.not_eq_false] at ended
  obtain ⟨path, -, -, n, m, node, local_, -⟩ := ended_performed split course.performs ended
  have portrayed := (portrayed_performed anchored portrays apart split course ok).nodes key n node
  rw [portrayed.isLocal, Option.isNone_iff_eq_none] at local_
  simp [local_] at titled

/-- What is published when a declaration of a file is left. -/
theorem publication_performed (anchored : c.oracle.Anchored memory)
    (portrays : c.oracle.Portrays memory P r) (apart : P.Apart c.namer SymbolName.render) {n : Node}
    {x : π} (split : schedule c.oracle.files = first ++ .leaving n :: rest)
    (course : Course c first ((State.start c memory output).opened c) s)
    (performed : Yields ((Moment.leaving n).perform c) s () s')
    (effect : (Moment.leaving n).Effect c s s') (ok : s'.failure = none)
    (stands : r.Stands c.oracle memory n x) :
    ((Moment.leaving n).publication c s s').map (fun given => (given.1, given.2.identifier)) =
      P.publication c.locate x := by
  obtain ⟨file, indexed, inside, opened, unclosed⟩ := leaving_open split
  obtain ⟨situated, steps, -⟩ := situated_performed split course.performs
  obtain ⟨d, document, -⟩ := situated.opened _ opened
  have current := situated.current _ opened unclosed
  have located := steps.located (Table.all_empty _) _ d document
  have split' : schedule c.oracle.files = (first ++ [.leaving n]) ++ rest := by simpa using split
  have portrayed := portrayed_performed anchored portrays apart split'
    (course.append (.cons performed effect (.nil s'))) ok
  have here : (Moment.leaving n).publication c s s' = publication c n s s' := by
    rw [Moment.publication, effect.steps.failure_none ok]
    rfl
  rw [here]
  refine publication_eq portrays stands steps.later effect portrayed.nodes (d := d) ?_ ?_
  · rw [current, Option.bind_some, document]
  · rw [located, (anchored.tree file indexed n inside).2]

/-- **What a run publishes of a symbol with a name** is what the places in its files publish. -/
theorem publishedIn_iff (anchored : c.oracle.Anchored memory)
    (portrays : c.oracle.Portrays memory P r) (apart : P.Apart c.namer SymbolName.render)
    (distinct : (c.oracle.files.map (·.root.file)).Nodup)
    (course : Course c (schedule c.oracle.files) ((State.start c memory output).opened c) t)
    (ok : t.failure = none) {key : String} (titled : (P.titleOf c.namer key).isSome = true)
    (text : String) :
    (∃ given, given.identifier = text ∧
        PublishedIn c memory output (schedule c.oracle.files) key given) ↔
      ∃ x, r.Visited c.oracle memory x ∧ P.publication c.locate x = some (key, text) := by
  constructor
  · rintro ⟨given, rfl, before, m, after, s, s', split, first, there, published, -⟩
    rw [split] at course
    obtain ⟨s₁, course₁, rest⟩ := course.split
    obtain ⟨-, rfl⟩ := first.unique course₁.performs
    cases rest with
    | cons performed effect next =>
        obtain ⟨-, rfl⟩ := there.unique performed
        cases m with
        | opening | entering | closing => cases published
        | leaving n =>
            have moment : .leaving n ∈ schedule c.oracle.files := split ▸ by simp
            obtain ⟨file, indexed, inside⟩ := leaving_inside moment
            obtain ⟨x, stands, visited⟩ := stands_of_inside anchored portrays indexed inside
            have same := publication_performed anchored portrays apart split course₁ performed
              effect (next.steps.failure_none ok) stands
            rw [published] at same
            exact ⟨x, visited, same.symm⟩
  · rintro ⟨x, visited, published⟩
    obtain ⟨file, indexed, n, inside, stands⟩ := visited.stands anchored portrays
    obtain ⟨first, rest, s, split, before, after⟩ :=
      course.before (visits_mem_schedule distinct indexed inside).2
    cases after with
    | @cons _ _ _ s' _ performed effect next =>
        have ok' := next.steps.failure_none ok
        have same := publication_performed anchored portrays apart split before performed effect
          ok' stands
        rw [published] at same
        obtain ⟨⟨_, given⟩, here, own⟩ := Option.map_eq_some_iff.1 same
        obtain ⟨rfl, identifier⟩ := Prod.mk.inj own
        exact ⟨given, identifier, first, _, rest, s, s', split, before.performs, performed, here,
          open_of_titled anchored portrays apart split before (effect.steps.failure_none ok')
            titled⟩

end Performed

/-- **The monikers of a global symbol** of a completed run are those that the program gives it. -/
theorem monikers_run (anchored : c.oracle.Anchored memory)
    (portrays : c.oracle.Portrays memory P r) (apart : P.Apart c.namer SymbolName.render)
    (distinct : (c.oracle.files.map (·.root.file)).Nodup) {canceled : Cancellation Nat}
    {stats : Stats} {s' : State μ ω}
    (completed : Yields (run c canceled) (.start c memory output) (stats, none) s')
    {key : String} {n : SymbolNode} (node : s'.symbols.get? key = some n)
    (global : n.isLocal = false) (text : String) :
    (∃ given ∈ n.monikers, given.identifier = text) ↔
      P.Labels c.namer c.locate (r.Visited c.oracle memory) key text := by
  obtain ⟨t, u, course, endings, -, -, rfl, ok⟩ := course_run completed
  have okT := endings.steps.failure_none (failure_none_of_concluded ok)
  have whole : schedule c.oracle.files = schedule c.oracle.files ++ [] := (List.append_nil _).symm
  rw [symbols_concluded] at node
  obtain ⟨nₜ, nodeₜ, same⟩ := node_of_core endings.core.symm node
  have monikers : n.monikers = nₜ.monikers := by
    rw [← monikersAt_of_node node, ← monikersAt_of_node nodeₜ, endings.monikersAt]
  have local_ : nₜ.isLocal = n.isLocal := (congrArg SymbolNode.isLocal same :)
  have portrayed :=
    (portrayed_performed anchored portrays apart whole course okT).nodes key nₜ nodeₜ
  have titled : (P.titleOf c.namer key).isSome = true := by
    have titled := portrayed.isLocal
    rw [local_, global] at titled
    exact Option.isSome_iff_ne_none.2 fun none => by simp [none] at titled
  obtain ⟨asked, later, labelled⟩ := labelled_performed whole course.performs nodeₜ
  have primary := primary_eq anchored portrays portrayed labelled.declared later
  unfold Portrait.Labels
  rw [← primary, ← publishedIn_iff anchored portrays apart distinct course okT titled, monikers]
  constructor
  · rintro ⟨given, member, rfl⟩
    rcases labelled.sound given member with own | published
    · exact .inl (by rw [own, Option.map_some])
    · exact .inr ⟨given, rfl, published⟩
  · rintro (own | ⟨given, rfl, published⟩)
    · obtain ⟨given, here, rfl⟩ := Option.map_eq_some_iff.1 own
      exact ⟨given, labelled.primary given here, rfl⟩
    · exact labelled.published given published

end Session
end SymbolAtlas
