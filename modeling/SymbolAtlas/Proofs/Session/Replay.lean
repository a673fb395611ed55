/-
# SymbolAtlas.Proofs.Session.Replay -- a session does not look at its sink

What an operation answers, and all that it does to the state, is the same whatever takes its
elements.  So a session over any sink goes as the session that collects them, and its sink is
what it becomes when the collected elements are handed to it one after the other
(`State.replayed`).  `Replays m m'` says this of an operation; only a visit asks whether an
element was refused, so it holds of everything below a visit, whatever was refused before.
-/
import SymbolAtlas.Proofs.Session.Outcome

set_option autoImplicit false

namespace SymbolAtlas.Session

open SymbolAtlas.Graph (Id Element)

variable {μ ω α β : Type}

theorem outcome_get_bind (f : State μ ω → Indexing μ ω β) (s : State μ ω) :
    outcome (get >>= f) s = outcome (f s) s := rfl

/-! ## Handing elements on -/

/-- The same session with a sink that keeps every element. -/
def Context.collected (c : Context μ ω) : Context μ (Array Element) where
  oracle := c.oracle
  sink := Graph.Sink.collect
  options := c.options
  locate := c.locate

/-- What becomes of a sink that is handed elements one after the other, and the reason of its
first refusal; after that it is handed nothing. -/
def heard (c : Context μ ω) (output : ω) (elements : List Element) : ω × Option String :=
  elements.foldl (fun told e => deliver c e told.1 told.2) (output, none)

variable {c : Context μ ω} {output : ω}

theorem heard_append (first second : List Element) :
    heard c output (first ++ second) =
      second.foldl (fun told e => deliver c e told.1 told.2) (heard c output first) :=
  List.foldl_append

theorem heard_snoc (elements : List Element) (e : Element) :
    heard c output (elements ++ [e]) =
      deliver c e (heard c output elements).1 (heard c output elements).2 :=
  heard_append elements [e]

/-- Nothing reaches a sink after its first refusal. -/
theorem heard_append_of_refused {first : List Element} {reason : String}
    (refused : (heard c output first).2 = some reason) (second : List Element) :
    heard c output (first ++ second) = heard c output first := by
  rw [heard_append]
  generalize heard c output first = told at refused ⊢
  obtain ⟨taken, failure⟩ := told
  obtain rfl : failure = some reason := refused
  induction second with
  | nil => rfl
  | cons e second ih => exact ih

/-- What the sink of `c` is when a collecting session has kept `kept`; a refusal is passed on. -/
def told (c : Context μ ω) (output : ω) (kept : Array Element) : Option String → ω × Option String
  | none => heard c output kept.toList
  | some reason => ((heard c output kept.toList).1, some reason)

/-- A collected session whose elements were handed to the sink of `c`. -/
def State.replayed (c : Context μ ω) (output : ω) (s : State μ (Array Element)) : State μ ω :=
  { s with
    output := (told c output s.output s.failure).1
    failure := (told c output s.output s.failure).2 }

theorem told_deliver (kept : Array Element) (failure : Option String) (e : Element) :
    told c output (deliver c.collected e kept failure).1 (deliver c.collected e kept failure).2 =
      deliver c e (told c output kept failure).1 (told c output kept failure).2 := by
  cases failure with
  | some reason => rfl
  | none =>
      show heard c output (kept.push e).toList = _
      rw [Array.toList_push, heard_snoc]
      rfl

theorem emitted_replayed (s : State μ (Array Element)) (body : Graph.Body) :
    (s.emitted c.collected body).replayed c output = (s.replayed c output).emitted c body := by
  unfold State.replayed State.emitted
  rw [told_deliver]

section Fields

variable (s : State μ (Array Element))

@[simp] theorem memory_replayed : (s.replayed c output).memory = s.memory := rfl

@[simp] theorem namer_replayed : (s.replayed c output).namer = s.namer := rfl

@[simp] theorem symbols_replayed : (s.replayed c output).symbols = s.symbols := rfl

@[simp] theorem documents_replayed : (s.replayed c output).documents = s.documents := rfl

@[simp] theorem traversal_replayed : (s.replayed c output).traversal = s.traversal := rfl

@[simp] theorem pendingLocals_replayed :
    (s.replayed c output).pendingLocals = s.pendingLocals := rfl

@[simp] theorem current_replayed : (s.replayed c output).current = s.current := rfl

@[simp] theorem projectId_replayed : (s.replayed c output).projectId = s.projectId := rfl

@[simp] theorem oracle_collected : c.collected.oracle = c.oracle := rfl

@[simp] theorem options_collected : c.collected.options = c.options := rfl

@[simp] theorem locate_collected : c.collected.locate = c.locate := rfl

end Fields

/-! ## Operations -/

/-- `m'` does over the sink of `c` what `m` does when its elements are collected. -/
def Replays (c : Context μ ω) (output : ω) (m : Indexing μ (Array Element) α)
    (m' : Indexing μ ω α) : Prop :=
  ∀ s, outcome m' (s.replayed c output) = ((outcome m s).1, (outcome m s).2.replayed c output)

namespace Replays

/-- What a replayed step yields is what the step yields. -/
theorem yields {m : Indexing μ (Array Element) α} {m' : Indexing μ ω α} (h : Replays c output m m')
    {s s' : State μ (Array Element)} {a : α} (done : Yields m s a s') :
    Yields m' (s.replayed c output) a (s'.replayed c output) := by
  rw [Yields, h, done]

theorem pure (a : α) :
    Replays c output (pure a : Indexing μ (Array Element) α) (pure a : Indexing μ ω α) :=
  fun _ => rfl

theorem throw (e : Broken) :
    Replays c output (throw e : Indexing μ (Array Element) α) (throw e : Indexing μ ω α) :=
  fun _ => rfl

theorem bind {m : Indexing μ (Array Element) α} {m' : Indexing μ ω α}
    {f : α → Indexing μ (Array Element) β} {f' : α → Indexing μ ω β} (first : Replays c output m m')
    (second : ∀ a, Replays c output (f a) (f' a)) : Replays c output (m >>= f) (m' >>= f') := by
  intro s
  rw [outcome_bind, outcome_bind, first]
  rcases outcome m s with ⟨e | a, t⟩
  · rfl
  · exact second a t

/-- Reading the state and going on with what it says. -/
theorem read {f : State μ (Array Element) → Indexing μ (Array Element) β}
    {f' : State μ ω → Indexing μ ω β}
    (after : ∀ s, Replays c output (f s) (f' (s.replayed c output))) :
    Replays c output (get >>= f) (get >>= f') := by
  intro s
  rw [outcome_get_bind, outcome_get_bind]
  exact after s s

theorem set (t : State μ (Array Element)) :
    Replays c output (set t : Indexing μ (Array Element) PUnit)
      (set (t.replayed c output) : Indexing μ ω PUnit) :=
  fun _ => rfl

theorem modify {f : State μ (Array Element) → State μ (Array Element)}
    {f' : State μ ω → State μ ω} (same : ∀ s, f' (s.replayed c output) = (f s).replayed c output) :
    Replays c output (modify f : Indexing μ (Array Element) PUnit)
      (modify f' : Indexing μ ω PUnit) := by
  intro s
  rw [outcome_modify, outcome_modify, same]

theorem forIn {ι : Type} {f : ι → Indexing μ (Array Element) (ForInStep PUnit)}
    {f' : ι → Indexing μ ω (ForInStep PUnit)} (each : ∀ x, Replays c output (f x) (f' x))
    (xs : List ι) : Replays c output (forIn xs PUnit.unit fun x _ => f x)
      (forIn xs PUnit.unit fun x _ => f' x) := by
  induction xs with
  | nil => exact .pure _
  | cons x xs ih =>
      rw [List.forIn_cons, List.forIn_cons]
      refine .bind (each x) fun step => ?_
      cases step with
      | done u => exact .pure _
      | yield u => exact ih

theorem ite {p : Prop} [Decidable p] {m n : Indexing μ (Array Element) α} {m' n' : Indexing μ ω α}
    (yes : Replays c output m m') (no : Replays c output n n') :
    Replays c output (if p then m else n) (if p then m' else n') := by
  split
  · exact yes
  · exact no

theorem emit (body : Graph.Body) : Replays c output (emit c.collected body) (emit c body) := by
  intro s
  have here : Yields (Session.emit c.collected body) s _ _ := yields_emit.2 ⟨rfl, rfl⟩
  have there : Yields (Session.emit c body) (s.replayed c output) _ _ := yields_emit.2 ⟨rfl, rfl⟩
  rw [there, here, emitted_replayed]
  rfl

theorem ask (question : StateM μ α) :
    Replays c output (ask question) (ask question : Indexing μ ω α) :=
  fun _ => rfl

theorem nodeOf (id : NodeId) : Replays c output (nodeOf c.collected id) (nodeOf c id) :=
  fun _ => rfl

theorem lookup (key : String) : Replays c output (lookup key) (lookup key : Indexing μ ω _) :=
  fun _ => rfl

theorem documentId (path : String) :
    Replays c output (documentId path) (documentId path : Indexing μ ω _) :=
  fun _ => rfl

theorem count (f : Stats → Stats) : Replays c output (count f) (count f : Indexing μ ω Unit) :=
  fun _ => rfl

theorem modifySymbol (key : String) (f : SymbolNode → SymbolNode) :
    Replays c output (modifySymbol key f) (modifySymbol key f : Indexing μ ω Unit) :=
  fun _ => rfl

theorem markOf (declaration : Node) :
    Replays c output (markOf c.collected declaration) (markOf c declaration) := by
  unfold Session.markOf
  cases declaration.nameNode with
  | none => exact .pure _
  | some name => exact .nodeOf name

theorem nodesOf (ids : List NodeId) :
    Replays c output (ids.mapM (Session.nodeOf c.collected)) (ids.mapM (Session.nodeOf c)) := by
  induction ids with
  | nil => exact .pure _
  | cons id ids ih =>
      rw [List.mapM_cons, List.mapM_cons]
      exact .bind (.nodeOf id) fun _ => .bind ih fun _ => .pure _

theorem requireOpen (key : String) (addition : Addition) :
    Replays c output (requireOpen key addition) (requireOpen key addition : Indexing μ ω Unit) :=
  .bind (.lookup key) fun _ => .ite (.throw _) (.pure _)

/-! ### Documents -/

theorem beginDocument (path : String) :
    Replays c output (beginDocument c.collected path) (beginDocument c path) :=
  .bind (.emit _) fun _ => .read fun _ => .bind (.set _) fun _ => .bind (.count _) fun _ => .pure _

theorem document (path : String) :
    Replays c output (document c.collected path) (document c path) := by
  refine .read fun s => ?_
  rw [documents_replayed]
  cases s.documents.get? path with
  | none => exact .beginDocument path
  | some d => exact .pure d

theorem addRange (path : String) (range : Graph.Range) :
    Replays c output (addRange c.collected path range) (addRange c path range) :=
  .bind (.document path) fun _ => .ite (.throw _) <|
    .bind (.emit _) fun _ => .bind (.modify fun _ => rfl) fun _ => .pure _

theorem endSymbol (key : String) :
    Replays c output (endSymbol c.collected key) (endSymbol c key) := by
  refine .read fun s => ?_
  rw [symbols_replayed]
  cases s.symbols.get? key with
  | none => exact .pure _
  | some n =>
      exact .ite (.throw _) <| .bind (.forIn (fun _ => .bind (.emit _) fun _ => .pure _) _)
        fun _ => .modify fun _ => rfl

theorem endOpenSymbol (key : String) :
    Replays c output (endOpenSymbol c.collected key) (endOpenSymbol c key) := by
  refine .read fun s => ?_
  rw [symbols_replayed]
  cases s.symbols.get? key with
  | none => exact .pure _
  | some n => exact .ite (.pure _) (.endSymbol key)

theorem endDocument (path : String) :
    Replays c output (endDocument c.collected path) (endDocument c path) := by
  refine .read fun s => ?_
  rw [documents_replayed]
  cases s.documents.get? path with
  | none => exact .pure _
  | some d =>
      refine .ite (.throw _) <| .bind (.forIn (fun key => ?_) _) fun _ => ?_
      · exact .bind (.endOpenSymbol key) fun _ => .pure _
      · exact .ite (.modify fun _ => rfl) (.bind (.emit _) fun _ => .modify fun _ => rfl)

theorem finish : Replays c output (finish c.collected) (finish c) := by
  refine .read fun s => .bind (.forIn (fun key => ?_) _) fun _ => .read fun s =>
    .bind (.forIn (fun entry => ?_) _) fun _ => .read fun s => ?_
  · exact .bind (.endOpenSymbol key) fun _ => .pure _
  · exact .ite (.pure _) (.bind (.endDocument entry.1) fun _ => .pure _)
  · exact .ite (.pure _) (.bind (.emit _) fun _ => .pure _)

/-! ### Occurrences -/

theorem recordDefinition (key path : String) (declaration : Node) :
    Replays c output (recordDefinition c.collected key path declaration)
      (recordDefinition c key path declaration) :=
  .bind (.requireOpen _ _) fun _ => .bind (.markOf _) fun _ => .bind (.lookup _) fun _ =>
    .ite (.pure _) <| .bind (.modifySymbol _ _) fun _ => .bind (.addRange _ _) fun _ =>
      .bind (.documentId _) fun _ => .bind (.modifySymbol _ _) fun _ => .count _

theorem recordEarly (key : String) (declaration : Node) :
    Replays c output (recordEarly c.collected key declaration) (recordEarly c key declaration) :=
  .read fun _ => .ite (.pure _) <| .bind (.document _) fun _ =>
    .ite (.pure _) (.recordDefinition _ _ _)

theorem markDefinition (key path : String) (name : Node) :
    Replays c output (markDefinition c.collected key path name)
      (markDefinition c key path name) := by
  refine .bind (.lookup key) fun n => ?_
  cases (n.sites.get? (Site.ofNode name)).or name.parent with
  | none => exact .bind (.requireOpen _ _) fun _ => .throw _
  | some declaration => exact .bind (.nodeOf _) fun _ => .recordDefinition _ _ _

theorem isDefinition (key : String) (name : Node) :
    Replays c output (isDefinition c.collected key name) (isDefinition c key name) :=
  .bind (.lookup key) fun _ => .read fun _ => .pure _

theorem forward (key path : String) (document id : Id) :
    Replays c output (forward key path document id)
      (forward key path document id : Indexing μ ω Unit) := by
  refine .read fun s => ?_
  rw [symbols_replayed]
  cases s.symbols.get? key with
  | none => exact .pure _
  | some n => exact .ite (.pure _) (.modifySymbol _ _)

theorem addReference (key path : String) (name : Node) :
    Replays c output (addReference c.collected key path name) (addReference c key path name) := by
  refine .bind (.requireOpen _ _) fun _ => .bind (.lookup key) fun _ => .bind (.addRange _ _)
    fun _ => .bind (.documentId _) fun _ => .bind (.modifySymbol _ _) fun _ => .bind (.count _)
      fun _ => .bind (.forIn (fun base => ?_) _) fun _ => .bind (.forIn (fun member => ?_) _)
        fun _ => .pure _
  · exact .bind (.forward _ _ _ _) fun _ => .pure _
  · exact .ite (.pure _) (.bind (.forward _ _ _ _) fun _ => .pure _)

/-! ### Symbols -/

theorem attachMoniker (key : String) (m : Moniker) :
    Replays c output (attachMoniker c.collected key m) (attachMoniker c key m) :=
  .bind (.requireOpen _ _) fun _ => .bind (.lookup _) fun _ => .ite (.pure _) <|
    .bind (.emit _) fun _ => .bind (.emit _) fun _ => .bind (.modifySymbol _ _) fun _ => .count _

theorem locations_collected (declarations : List Node) :
    locations? c.collected declarations = locations? c declarations := by
  induction declarations with
  | nil => rfl
  | cons d rest ih => rw [locations?, locations?, ih, locate_collected]

theorem attachExported (key : String) (n : SymbolNode) :
    Replays c output (attachExported c.collected key n) (attachExported c key n) := by
  refine .ite (.pure _) <| .bind (.ask _) fun answer => ?_
  cases answer with
  | none => exact .pure _
  | some segments =>
      refine .bind (.nodesOf _) fun declarations => ?_
      rw [locations_collected]
      cases (locations? c declarations).bind Location.agree with
      | none => exact .pure _
      | some location => exact .attachMoniker _ _

theorem attachPrimary (key : String) :
    Replays c output (attachPrimary c.collected key) (attachPrimary c key) := by
  refine .bind (.lookup key) fun n => ?_
  split
  · exact .attachExported _ _
  · exact .attachExported _ _
  · exact .pure _

theorem attachHover (key : String) :
    Replays c output (attachHover c.collected key) (attachHover c key) := by
  refine .bind (.lookup key) fun n => .ite (.pure _) <| .bind (.nodesOf _) fun declarations => ?_
  cases declarations.findSome? (·.nameNode) with
  | none => exact .pure _
  | some name =>
      refine .bind (.ask _) fun answer => ?_
      cases answer with
      | error reason => exact .pure _
      | ok hover =>
          exact .ite (.pure _) (.bind (.emit _) fun _ => .bind (.emit _) fun _ => .pure _)

theorem inBlock?_collected (memory : μ) (fuel : Nat) (parent : Option NodeId) :
    inBlock? c.collected memory fuel parent = inBlock? c memory fuel parent := by
  induction fuel generalizing parent with
  | zero => cases parent <;> rfl
  | succ fuel ih =>
      cases parent with
      | none => rfl
      | some id => simp only [inBlock?, oracle_collected, ih]

theorem isConfined?_collected (memory : μ) (declaration : Node) :
    isConfined? c.collected memory declaration = isConfined? c memory declaration := by
  simp only [isConfined?, inBlock?_collected, oracle_collected]

theorem areConfined?_collected (memory : μ) (file : String) (declarations : List Node) :
    areConfined? c.collected memory file declarations =
      areConfined? c memory file declarations := by
  induction declarations with
  | nil => rfl
  | cons d rest ih => simp only [areConfined?, isConfined?_collected, ih]

theorem confine (key : String) : Replays c output (confine c.collected key) (confine c key) := by
  refine .bind (.lookup key) fun n => .bind (.nodesOf _) fun declarations => ?_
  cases declarations with
  | nil => exact .pure _
  | cons first rest =>
      refine .read fun s => ?_
      simp only [areConfined?_collected, traversal_replayed, memory_replayed, documents_replayed,
        pendingLocals_replayed]
      refine .ite ?_ (.pure _)
      rcases areConfined? c s.memory first.file (first :: rest) with - | - | -
      · exact .throw _
      · exact .pure _
      · cases s.documents.get? first.file with
        | none => exact .set _
        | some d => exact .ite (.pure _) (.set _)

theorem nameSymbol (key : String) (declarations : List NodeId) :
    Replays c output (nameSymbol c.collected key declarations)
      (nameSymbol c key declarations) := by
  refine .read fun s => ?_
  simp only [oracle_collected, namer_replayed, memory_replayed]
  rcases s.namer.nameFirst? c.oracle declarations s.memory with ⟨e | answer, memory⟩
  · exact .bind (.set _) fun _ => .throw _
  · exact .bind (.set _) fun _ => .pure _

theorem enroll (sym : Symbol) (use : Option NodeId) :
    Replays c output (enroll c.collected sym use) (enroll c sym use) :=
  .bind (.ask _) fun _ => .bind (.modifySymbol _ _) fun _ => .bind (.ask _) fun _ =>
    .bind (.modifySymbol _ _) fun _ => .bind (.nameSymbol _ _) fun _ => .bind (.emit _) fun _ =>
      .bind (.modifySymbol _ _) fun _ => .bind (.count _) fun _ => .pure _

theorem establish (sym : Symbol) (use : Option NodeId) :
    Replays c output (establish c.collected sym use) (establish c sym use) := by
  refine .bind (.enroll sym use) fun answer => .bind (.attachPrimary _) fun _ =>
    .bind (.attachHover _) fun _ => .bind (.forIn (fun id => ?_) _) fun _ => .pure _
  exact .bind (.nodeOf id) fun _ => .bind (.markOf _) fun _ => .bind (.modifySymbol _ _) fun _ =>
    .bind (.recordEarly _ _) fun _ => .pure _

theorem link {resolve : Symbol → Indexing μ (Array Element) String}
    {resolve' : Symbol → Indexing μ ω String}
    (each : ∀ sym, Replays c output (resolve sym) (resolve' sym)) (key : String) (v : Variant) :
    Replays c output (link c.collected resolve key v) (link c resolve' key v) := by
  cases v with
  | standard => exact .pure _
  | transient => exact .pure _
  | composite members => exact .modifySymbol _ _
  | aliasOf target =>
      cases target with
      | none => exact .pure _
      | some target =>
          exact .bind (each target) fun _ => .bind (.lookup _) fun _ => .bind (.lookup _) fun _ =>
            .bind (.emit _) fun _ => .pure _
  | method container bases =>
      refine .bind (.forIn (fun base => ?_) _) fun _ => .pure _
      exact .bind (each base) fun _ => .ite (.pure _) (.bind (.modifySymbol _ _) fun _ => .pure _)

theorem symbolNodeWith (use : Option NodeId) (fuel : Nat) (sym : Symbol) :
    Replays c output (symbolNodeWith c.collected use fuel sym) (symbolNodeWith c use fuel sym) := by
  induction fuel generalizing sym with
  | zero => exact .throw _
  | succ fuel ih =>
      refine .read fun _ => .ite (.pure _) <| .bind (.modify fun _ => rfl) fun _ =>
        .bind (.establish sym use) fun v => .bind (.link ih _ v) fun _ =>
          .bind (.lookup _) fun _ => ?_
      exact .ite (.bind (.confine _) fun _ => .pure _) (.pure _)

theorem symbolNode (sym : Symbol) (use : Option NodeId) :
    Replays c output (symbolNode c.collected sym use) (symbolNode c sym use) :=
  .symbolNodeWith use _ sym

/-! ### Visits -/

theorem linkExport (declaration : Node) (name : String) :
    Replays c output (linkExport c.collected declaration name) (linkExport c declaration name) := by
  refine .read fun s => ?_
  rw [current_replayed]
  cases s.current with
  | none => exact .throw _
  | some path =>
      cases declaration.nameNode with
      | none => exact .pure _
      | some nameNode =>
          refine .bind (.ask _) fun found => ?_
          cases found with
          | none => exact .pure _
          | some sym =>
              refine .bind (.symbolNode _ _) fun key => .bind (.lookup key) fun n => ?_
              split
              · refine .bind (.symbolNode _ _) fun targetKey => .bind (.lookup _) fun before =>
                  .read fun t => ?_
                simp only [documents_replayed]
                cases ((t.documents.get? path).getD default).location with
                | none => exact .pure _
                | some location =>
                    exact .ite (.pure _) <| .bind (.attachMoniker _ _) fun _ =>
                      .bind (.lookup _) fun _ => .ite (.count _) (.pure _)
              · exact .pure _

theorem visitIdentifier (path : String) (name : Node) :
    Replays c output (visitIdentifier c.collected path name) (visitIdentifier c path name) := by
  refine .bind (.ask _) fun found => ?_
  cases found with
  | none => exact .count _
  | some sym =>
      exact .bind (.symbolNode _ _) fun _ => .bind (.isDefinition _ _) fun _ =>
        .ite (.markDefinition _ _ _) (.addReference _ _ _)

end Replays

end SymbolAtlas.Session
