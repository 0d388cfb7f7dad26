import Mathlib.Data.List.Nodup
import Mathlib.Data.List.TakeWhile
import JavaMigration.Proofs.Source.Declared
import JavaMigration.Proofs.Source.Walk

/-!
# Messages of a whole traversal

A visitor that leaves a message at every declaration and call, for the nearest node of some kind,
and asks for it whenever a node with children has been walked. What it is told is said here along
the tree: the chain from a leaf up is that of its place in the tree, and a node hears the last of
the leaves to which it is the nearest of its kind.
-/

namespace JavaMigration.Source

/-! ## Places in a tree -/

/-- A node and those above it up to the root, each with its number among its siblings. -/
abbrev Place : Type := List (Nat × Node)

namespace Place

def nodes (p : Place) : List Node := p.map (·.2)

/-- The numbers tell a place from all others. -/
def address (p : Place) : List Nat := p.map (·.1)

def kind? (p : Place) : Option NodeKind := p.head?.map (·.2.kind)

/-- Whether the place is that of a declaration of variables or of a call. -/
def isLeaf (p : Place) : Bool := p.kind? == some .vars || p.kind? == some .call

/-- The place of the nearest node of a kind, the node itself included. -/
def nearest (kind : NodeKind) (p : Place) : Place := p.dropWhile (·.2.kind != kind)

end Place

/-- The places in a node and that of the node, in the order in which their visits end. -/
def enclose (x : Nat × Node) (places : List Place) : List Place := places.map (· ++ [x]) ++ [[x]]

mutual

/-- The places of all that is visited in a statement with a number, in the order in which their
visits end. -/
def Statement.tour (i : Nat) : Statement → List Place
  | .type d => d.tour i
  | .method d => d.tour i
  | .vars d => [[(i, .vars d)]]
  | .call c => [[(i, .call c)]]
  | .raw _ => []

def TypeDecl.tour (i : Nat) : TypeDecl → List Place
  | ⟨id, lead, annotations, modifiers, kind, kindLead, name, header, body, type⟩ =>
    enclose (i, .type ⟨id, lead, annotations, modifiers, kind, kindLead, name, header, body, type⟩)
      body.tour

def MethodDecl.tour (i : Nat) : MethodDecl → List Place
  | ⟨id, lead, annotations, modifiers, returnType, name, parameters, throws, body, close⟩ =>
    enclose (i, .method ⟨id, lead, annotations, modifiers, returnType, name, parameters, throws,
        body, close⟩)
      (match body with
        | some body => body.tour
        | none => [])

def Block.tour : Block → List Place
  | ⟨lead, statements, close⟩ =>
    enclose (0, .block ⟨lead, statements, close⟩) (tourFrom 0 statements)

def tourFrom (i : Nat) : List Statement → List Place
  | [] => []
  | s :: rest => s.tour i ++ tourFrom (i + 1) rest

end

def CompilationUnit.tour (u : CompilationUnit) : List Place :=
  enclose (0, .unit u) (tourFrom 0 u.types)

/-! ## Posting and polling -/

/-- What a visitor notes at a leaf, and what it notes when a node has been walked. -/
inductive Event (μ : Type) where
  | posted (path : List Node) (message : μ) (found : Bool)
  | polled (path : List Node) (heard : Option μ)

/-- What is posted at the leaves: under which key, for which kind of node, and which message, which
may depend on all that has happened before. A leaf may also be rebuilt. -/
structure Poster (μ : Type) where
  kind : NodeKind
  key : String
  message : List (Event μ) → List Node → μ
  vars : List (Event μ) → VariableDecl → Revision VariableDecl := fun _ _ => .kept
  call : List (Event μ) → Call → Revision Call := fun _ _ => .kept

namespace Poster

variable {μ α : Type} (p : Poster μ)

def note (e : Event μ) : Walk μ (List (Event μ)) Unit := do
  Walk.setOwn ((← Walk.own) ++ [e])

/-- Posts a message, with the chain that the cursor shows. -/
def post : Walk μ (List (Event μ)) Unit := do
  let path := (← Walk.cursor).path
  let message := p.message (← Walk.own) path
  note (.posted path message (← Walk.post p.kind p.key message))

/-- Polls the message after a walk. -/
def poll (walk : Walk μ (List (Event μ)) α) : Walk μ (List (Event μ)) α := do
  let path := (← Walk.cursor).path
  let a ← walk
  note (.polled path (← Walk.poll some p.key))
  return a

def visitor : Visitor μ (List (Event μ)) where
  unit _ walk := p.poll walk
  type _ walk := p.poll walk
  block _ walk := p.poll walk
  method _ walk := p.poll walk
  vars d := do
    p.post
    return p.vars (← Walk.own) d
  call c := do
    p.post
    return p.call (← Walk.own) c

end Poster

/-! ## What is heard -/

section Heard

variable {μ : Type}

/-- Places in the order of a tour, those of leaves with the messages posted there. -/
abbrev Said (μ : Type) : Type := List (Place × Option μ)

/-- The messages from the leaves whose nearest node of a kind has a given place. -/
def addressed (kind : NodeKind) (said : Said μ) (p : Place) : List μ :=
  said.filterMap fun s => if (s.1.nearest kind).address = p.address then s.2 else none

/-- What a node of a tour hears, the last of these messages; other kinds of nodes hear nothing. -/
def heard (kind : NodeKind) (said : Said μ) (p : Place) : Option μ :=
  if p.kind? = some kind then (addressed kind said p).getLast? else none

/-- What is noted at a place below some other nodes. -/
def eventAt (kind : NodeKind) (outer : List Node) (said : Said μ) (s : Place × Option μ) :
    Event μ :=
  match s.2 with
  | some message =>
    .posted (s.1.nodes ++ outer) message ((s.1.nodes ++ outer).any fun n => n.kind = kind)
  | none => .polled (s.1.nodes ++ outer) (heard kind said s.1)

/-- The messages for nodes above all places. -/
def escaping (kind : NodeKind) (said : Said μ) : List μ :=
  said.filterMap fun s => if s.1.all (·.2.kind != kind) then s.2 else none

end Heard

/-! ## The nearest node -/

namespace Place

variable {kind : NodeKind} {p : Place}

theorem address_append (p : Place) (x : Nat × Node) : address (p ++ [x]) = p.address ++ [x.1] := by
  simp [address]

/-- The nearest node of a kind is on the way up, if there is one. -/
theorem getLast?_nearest (kind : NodeKind) (p : Place) :
    p.nearest kind = [] ∨ (p.nearest kind).address.getLast? = p.address.getLast? := by
  obtain ⟨below, hbelow⟩ : p.nearest kind <:+ p := List.dropWhile_suffix _
  rcases List.eq_nil_or_concat (p.nearest kind) with h | ⟨up, x, h⟩
  · exact .inl h
  · right
    have hp : p = (below ++ up) ++ [x] := by
      rw [List.append_assoc, ← List.concat_eq_append, ← h, hbelow]
    rw [h, List.concat_eq_append, address_append, hp, address_append, List.getLast?_concat,
      List.getLast?_concat]

theorem nearest_of_all (h : p.all (·.2.kind != kind)) : p.nearest kind = [] :=
  List.dropWhile_eq_nil_iff.mpr (List.all_eq_true.mp h)

theorem nearest_ne_nil (h : p.all (·.2.kind != kind) = false) : p.nearest kind ≠ [] := by
  unfold nearest
  rw [Ne, List.dropWhile_eq_nil_iff]
  simpa using h

/-- A node that is not passed on the way to the nearest one changes nothing. -/
theorem nearest_append_of_exists (h : p.all (·.2.kind != kind) = false) (x : Nat × Node) :
    nearest kind (p ++ [x]) = p.nearest kind ++ [x] := by
  have hne : (p.dropWhile (·.2.kind != kind)).isEmpty = false :=
    List.isEmpty_eq_false_iff.mpr (nearest_ne_nil h)
  unfold nearest
  rw [List.dropWhile_append, hne]
  rfl

theorem nearest_append_of_all (h : p.all (·.2.kind != kind)) (x : Nat × Node) :
    nearest kind (p ++ [x]) = if x.2.kind = kind then [x] else [] := by
  have hnil : p.dropWhile (·.2.kind != kind) = [] := nearest_of_all h
  unfold nearest
  rw [List.dropWhile_append, hnil]
  by_cases hx : x.2.kind = kind <;> simp [hx]

end Place

/-! ## What is heard where -/

section Heard

variable {μ : Type} {kind : NodeKind}

theorem addressed_eq_nil {said : Said μ} {p : Place} {i : Nat} (hp : p.address.getLast? = some i)
    (h : ∀ s ∈ said, s.1.address.getLast? ≠ some i) : addressed kind said p = [] := by
  refine List.filterMap_eq_nil_iff.mpr fun s hs => if_neg fun hsame => ?_
  rcases s.1.getLast?_nearest kind with hnil | hlast
  · rw [hnil] at hsame
    rw [← hsame] at hp
    cases hp
  · rw [hsame, hp] at hlast
    exact h s hs hlast.symm

/-- A node hears nothing of what is said in the statements after the one it is in. -/
theorem heard_append_left {said more : Said μ} {p : Place} {i : Nat}
    (hp : p.address.getLast? = some i) (h : ∀ s ∈ more, s.1.address.getLast? ≠ some i) :
    heard kind (said ++ more) p = heard kind said p := by
  have happ : addressed kind (said ++ more) p = addressed kind said p ++ addressed kind more p :=
    List.filterMap_append
  unfold heard
  rw [happ, addressed_eq_nil hp h, List.append_nil]

/-- A node hears nothing of what is said in the statements before the one it is in. -/
theorem heard_append_right {said more : Said μ} {p : Place} {i : Nat}
    (hp : p.address.getLast? = some i) (h : ∀ s ∈ said, s.1.address.getLast? ≠ some i) :
    heard kind (said ++ more) p = heard kind more p := by
  have happ : addressed kind (said ++ more) p = addressed kind said p ++ addressed kind more p :=
    List.filterMap_append
  unfold heard
  rw [happ, addressed_eq_nil hp h, List.nil_append]

theorem escaping_append (said more : Said μ) :
    escaping kind (said ++ more) = escaping kind said ++ escaping kind more :=
  List.filterMap_append

/-- What is said in a node, and the node itself. -/
def Said.enclose (x : Nat × Node) (said : Said μ) : Said μ :=
  said.map (fun s => (s.1 ++ [x], s.2)) ++ [([x], none)]

theorem Said.map_fst_enclose (x : Nat × Node) (said : Said μ) :
    (said.enclose x).map (·.1) = Source.enclose x (said.map (·.1)) := by
  unfold Said.enclose Source.enclose
  rw [List.map_append, List.map_map, List.map_map]
  rfl

theorem filterMap_enclose (x : Nat × Node) (said : Said μ) (f : Place → Bool) :
    (said.enclose x).filterMap (fun s => if f s.1 then s.2 else none) =
      said.filterMap fun s => if f (s.1 ++ [x]) then s.2 else none := by
  have hself : [([x], (none : Option μ))].filterMap
      (fun s => if f s.1 then s.2 else none) = [] := by
    simp
  unfold Said.enclose
  rw [List.filterMap_append, List.filterMap_map, hself, List.append_nil]
  rfl

/-- A node of the kind keeps the messages from inside for itself. -/
theorem escaping_enclose (x : Nat × Node) (said : Said μ) :
    escaping kind (said.enclose x) = if x.2.kind = kind then [] else escaping kind said := by
  unfold escaping
  rw [filterMap_enclose x said fun p => p.all (·.2.kind != kind)]
  by_cases h : x.2.kind = kind
  · rw [if_pos h]
    exact List.filterMap_eq_nil_iff.mpr fun s _ => if_neg (by simp [h])
  · rw [if_neg h]
    refine List.filterMap_congr fun s _ => ?_
    rw [List.all_append, List.all_cons, bne_iff_ne.mpr h, List.all_nil, Bool.and_true,
      Bool.and_true]

theorem addressed_enclose (x : Nat × Node) (said : Said μ) (p : Place) :
    addressed kind (said.enclose x) p = said.filterMap fun s =>
      if (Place.nearest kind (s.1 ++ [x])).address = p.address then s.2 else none := by
  unfold addressed
  have h := filterMap_enclose x said fun q => (q.nearest kind).address == p.address
  simpa only [beq_iff_eq] using h

/-- A node of the kind hears the last of what escapes from the walk of its children. -/
theorem heard_enclose_self (x : Nat × Node) (said : Said μ) :
    heard kind (said.enclose x) [x] =
      if x.2.kind = kind then (escaping kind said).getLast? else none := by
  by_cases h : x.2.kind = kind
  · rw [heard, if_pos (by simp [Place.kind?, h]), if_pos h, addressed_enclose]
    refine congrArg List.getLast? (List.filterMap_congr fun s _ => ?_)
    cases hall : s.1.all (·.2.kind != kind) with
    | true => simp [Place.nearest_append_of_all hall, h]
    | false =>
      have hne : s.1.nearest kind ≠ [] := Place.nearest_ne_nil hall
      simp [Place.nearest_append_of_exists hall, Place.address, hne]
  · rw [heard, if_neg (by simp [Place.kind?, h]), if_neg h]

/-- The nodes inside hear what they would hear without the node around them. -/
theorem heard_enclose (x : Nat × Node) (said : Said μ) {p : Place} (hp : p ≠ []) :
    heard kind (said.enclose x) (p ++ [x]) = heard kind said p := by
  have hkind : Place.kind? (p ++ [x]) = p.kind? := by
    obtain ⟨y, ys, rfl⟩ := List.exists_cons_of_ne_nil hp
    rfl
  unfold heard
  rw [hkind, addressed_enclose]
  refine if_congr Iff.rfl (congrArg List.getLast? (List.filterMap_congr fun s _ => ?_)) rfl
  refine if_congr ?_ rfl rfl
  cases hall : s.1.all (·.2.kind != kind) with
  | true =>
    rw [Place.nearest_append_of_all hall, Place.nearest_of_all hall]
    split <;> simp [Place.address, hp]
  | false => simp [Place.nearest_append_of_exists hall, Place.address]

end Heard

/-! ## Walks -/

namespace Poster

variable {μ α β : Type} (p : Poster μ)

/-- A walk goes through the places of a tour: it posts at the leaves and polls at the other nodes,
and leaves behind only the messages for nodes above. -/
def Tells (walk : Walk μ (List (Event μ)) α) (tour : List Place) : Prop :=
  ∀ frames events, ∃ a, ∃ said : Said μ, said.map (·.1) = tour ∧
    (∀ s ∈ said, s.2.isSome = s.1.isLeaf) ∧
    walk.run ⟨⟨frames⟩, events⟩ =
      (a, ⟨⟨deliver p.kind ((escaping p.kind said).map (p.key, ·)) frames⟩,
        events ++ said.map (eventAt p.kind (frames.map (·.node)) said)⟩)

variable {p}

theorem Tells.pure (a : α) : p.Tells (Pure.pure a : Walk μ _ α) [] := by
  refine fun frames events => ⟨a, [], rfl, fun _ h => (nomatch h), ?_⟩
  rw [Walk.run_pure]
  simp [escaping]

theorem Tells.map {walk : Walk μ (List (Event μ)) α} {tour : List Place} (h : p.Tells walk tour)
    (f : α → β) : p.Tells (do return f (← walk)) tour := by
  intro frames events
  obtain ⟨a, said, htour, hleaf, hrun⟩ := h frames events
  refine ⟨f a, said, htour, hleaf, ?_⟩
  rw [Walk.run_bind, hrun]
  rfl

/-- What is noted on a walk through one statement and what is noted on a walk through later ones
does not depend on what is said in the other one. -/
theorem events_append {kind : NodeKind} {outer : List Node} {said more : Said μ} {i : Nat}
    (hsaid : ∀ s ∈ said, s.1.address.getLast? = some i)
    (hmore : ∀ s ∈ more, ∃ j, i < j ∧ s.1.address.getLast? = some j) :
    (said ++ more).map (eventAt kind outer (said ++ more)) =
      said.map (eventAt kind outer said) ++ more.map (eventAt kind outer more) := by
  rw [List.map_append]
  congr 1
  · refine List.map_congr_left fun s hs => ?_
    have hheard : heard kind (said ++ more) s.1 = heard kind said s.1 := by
      refine heard_append_left (hsaid s hs) fun t ht hsame => ?_
      obtain ⟨j, hlt, hj⟩ := hmore t ht
      exact hlt.ne (Option.some.inj (hsame.symm.trans hj))
    unfold eventAt
    rw [hheard]
  · refine List.map_congr_left fun s hs => ?_
    obtain ⟨j, hlt, hj⟩ := hmore s hs
    have hheard : heard kind (said ++ more) s.1 = heard kind more s.1 :=
      heard_append_right hj fun t ht hsame =>
        hlt.ne (Option.some.inj ((hsaid t ht).symm.trans hsame))
    unfold eventAt
    rw [hheard]

theorem Tells.append {γ : Type} {walk : Walk μ (List (Event μ)) α}
    {more : Walk μ (List (Event μ)) β} {tour rest : List Place} (h : p.Tells walk tour)
    (hrest : p.Tells more rest) {i : Nat} (hi : ∀ q ∈ tour, q.address.getLast? = some i)
    (hj : ∀ q ∈ rest, ∃ j, i < j ∧ q.address.getLast? = some j) (f : α → β → γ) :
    p.Tells (do return f (← walk) (← more)) (tour ++ rest) := by
  intro frames events
  obtain ⟨a, said, rfl, hleaf, hrun⟩ := h frames events
  obtain ⟨b, said', rfl, hleaf', hrun'⟩ := hrest
    (deliver p.kind ((escaping p.kind said).map (p.key, ·)) frames)
    (events ++ said.map (eventAt p.kind (frames.map (·.node)) said))
  refine ⟨f a b, said ++ said', List.map_append, ?_, ?_⟩
  · exact fun s hs => (List.mem_append.mp hs).elim (hleaf s) (hleaf' s)
  · rw [Walk.run_bind, hrun, Walk.run_bind, hrun', Walk.run_pure, map_node_deliver,
      escaping_append, List.map_append, deliver_append, List.append_assoc,
      events_append (fun s hs => hi _ (List.mem_map_of_mem hs))
        (fun s hs => hj _ (List.mem_map_of_mem hs))]

/-- The answer to a post says whether there is a node of the kind on the chain. -/
theorem post_found (kind : NodeKind) (key : String) (message : μ) (frames : List (Frame μ)) :
    (Cursor.post ⟨frames⟩ kind key message).1 =
      (frames.map (·.node)).any fun n => n.kind = kind := by
  have hsome : (Cursor.postTo kind key message frames).isSome =
      (frames.map (·.node)).any fun n => n.kind = kind := by
    induction frames with
    | nil => rfl
    | cons f r ih =>
      unfold Cursor.postTo
      by_cases h : f.node.kind = kind
      · simp [h]
      · rw [if_neg h, Option.isSome_map, ih]
        simp [h]
  rw [← hsome]
  unfold Cursor.post
  cases Cursor.postTo kind key message frames <;> rfl

theorem run_post (frames : List (Frame μ)) (events : List (Event μ)) :
    let path := frames.map (·.node)
    let message := p.message events path
    p.post.run ⟨⟨frames⟩, events⟩ =
      ((), ⟨⟨deliver p.kind [(p.key, message)] frames⟩,
        events ++ [.posted path message (path.any fun n => n.kind = p.kind)]⟩) := by
  intro path message
  have hpost : (Walk.post p.kind p.key message).run ⟨⟨frames⟩, events⟩ =
      (path.any fun n => n.kind = p.kind,
        ⟨⟨deliver p.kind [(p.key, message)] frames⟩, events⟩) :=
    Prod.ext (post_found p.kind p.key message frames)
      (Walk.run_post p.kind p.key message frames events)
  unfold post
  rw [Walk.run_bind, Walk.run_cursor, Walk.run_bind, Walk.run_own, Walk.run_bind]
  dsimp only [Cursor.path]
  rw [hpost]
  rfl

/-- A leaf that is visited posts one message. -/
theorem Tells.leaf (i : Nat) (n : Node) (hn : n.kind = .vars ∨ n.kind = .call)
    (f : List (Event μ) → α) :
    p.Tells (Walk.attach n do
      p.post
      return f (← Walk.own)) [[(i, n)]] := by
  intro frames events
  let path := n :: frames.map (·.node)
  let message := p.message events path
  refine ⟨f (events ++ [.posted path message (path.any fun n => n.kind = p.kind)]),
    [([(i, n)], some message)], rfl, ?_, ?_⟩
  · intro s hs
    rw [List.mem_singleton.mp hs]
    rcases hn with hn | hn <;> simp [Place.isLeaf, Place.kind?, hn]
  · rw [Walk.run_attach, Walk.run_bind, run_post]
    dsimp only
    rw [Walk.run_bind, Walk.run_own, Walk.run_pure]
    by_cases hkind : n.kind = p.kind
    · rw [deliver_cons_self hkind]
      simp [escaping, eventAt, Place.nodes, hkind, path, message]
    · rw [deliver_cons_ne hkind]
      simp [escaping, eventAt, Place.nodes, hkind, path, message]

theorem run_poll {walk : Walk μ (List (Event μ)) α} {f g : Frame μ}
    {frames frames' : List (Frame μ)} {events events' : List (Event μ)} {a : α}
    (h : walk.run ⟨⟨f :: frames⟩, events⟩ = (a, ⟨⟨g :: frames'⟩, events'⟩)) :
    ∃ g' : Frame μ, (p.poll walk).run ⟨⟨f :: frames⟩, events⟩ =
      (a, ⟨⟨g' :: frames'⟩,
        events' ++ [.polled (f.node :: frames.map (·.node)) (g.mail.lookup p.key)]⟩) := by
  refine ⟨{ g with mail := g.mail.filter (·.1 != p.key) }, ?_⟩
  unfold poll
  rw [Walk.run_bind, Walk.run_cursor, Walk.run_bind, h, Walk.run_bind, Walk.run_poll,
    Option.bind_fun_some]
  rfl

/-- What is noted in a node does not depend on the node around it. -/
theorem events_enclose {kind : NodeKind} {outer : List Node} {said : Said μ} (x : Nat × Node)
    (hne : ∀ s ∈ said, s.1 ≠ []) :
    (said.enclose x).map (eventAt kind outer (said.enclose x)) =
      said.map (eventAt kind (x.2 :: outer) said) ++
        [.polled (x.2 :: outer)
          (if x.2.kind = kind then (escaping kind said).getLast? else none)] := by
  conv => lhs; arg 2; unfold Said.enclose
  rw [List.map_append, List.map_map]
  congr 1
  · refine List.map_congr_left fun s hs => ?_
    have hnodes : Place.nodes (s.1 ++ [x]) ++ outer = s.1.nodes ++ (x.2 :: outer) := by
      simp [Place.nodes]
    have hheard : heard kind (said.enclose x) (s.1 ++ [x]) = heard kind said s.1 :=
      heard_enclose x said (hne s hs)
    dsimp only [Function.comp_apply]
    unfold eventAt
    dsimp only
    rw [hnodes, hheard]
  · rw [List.map_singleton]
    unfold eventAt
    dsimp only
    rw [heard_enclose_self]
    rfl

theorem latest_map_key (key : String) (messages : List μ) :
    latest key (messages.map (key, ·)) = messages.getLast? := by
  have hall : (messages.map (key, ·)).filter (·.1 == key) = messages.map (key, ·) :=
    List.filter_eq_self.mpr (by simp)
  rw [latest, hall, List.getLast?_map, Option.map_map]
  exact Option.map_id'

/-- What escapes from a walk is found in the mailbox of the node around it, if that one is of the
kind, and goes on to the nodes above otherwise. -/
theorem deliver_escaping (n : Node) (messages : List μ) (frames : List (Frame μ)) :
    ∃ g : Frame μ, g.node = n ∧
      deliver p.kind (messages.map (p.key, ·)) ({ node := n } :: frames) =
        g :: deliver p.kind ((if n.kind = p.kind then [] else messages).map (p.key, ·)) frames ∧
      g.mail.lookup p.key = if n.kind = p.kind then messages.getLast? else none := by
  by_cases hkind : n.kind = p.kind
  · refine ⟨Frame.putAll { node := n } (messages.map (p.key, ·)), Frame.node_putAll _ _, ?_, ?_⟩
    · rw [deliver_cons_self hkind, if_pos hkind, List.map_nil, deliver_nil]
    · rw [Frame.lookup_putAll, latest_map_key, if_pos hkind]
      exact Option.or_none
  · refine ⟨{ node := n }, rfl, ?_, (if_neg hkind).symm⟩
    rw [deliver_cons_ne hkind, if_neg hkind]

/-- The visit of a node with children goes through their tour and then polls at the node. -/
theorem Tells.node {walk : Walk μ (List (Event μ)) (Revision β)} {tour : List Place}
    (h : p.Tells walk tour) (hne : ∀ q ∈ tour, q ≠ []) (i : Nat) (node : α → Node)
    (hleaf : ∀ a, (node a).kind ≠ .vars ∧ (node a).kind ≠ .call) (d : α) (f : β → α) :
    p.Tells (Walk.attach (node d) (p.poll do Walk.reveal node ((← walk).map f)))
      (enclose (i, node d) tour) := by
  intro frames events
  obtain ⟨a, said, rfl, hsaid, hrun⟩ := h ({ node := node d } :: frames) events
  obtain ⟨g, hg, hframes, hmail⟩ :=
    deliver_escaping (p := p) (node d) (escaping p.kind said) frames
  refine ⟨a.map f, said.enclose (i, node d), said.map_fst_enclose _, ?_, ?_⟩
  · intro s hs
    rcases List.mem_append.mp hs with hs | hs
    · obtain ⟨t, ht, rfl⟩ := List.mem_map.mp hs
      have hkind : (Place.kind? (t.1 ++ [(i, node d)])) = t.1.kind? := by
        obtain ⟨y, ys, hy⟩ := List.exists_cons_of_ne_nil (hne _ (List.mem_map_of_mem ht))
        rw [hy]
        rfl
      rw [Place.isLeaf, hkind]
      exact hsaid t ht
    · rw [List.mem_singleton.mp hs]
      simp [Place.isLeaf, Place.kind?, hleaf d]
  have hreveal : (do Walk.reveal node ((← walk).map f) : Walk μ (List (Event μ)) _).run
        ⟨⟨{ node := node d } :: frames⟩, events⟩ =
      (a.map f, ⟨⟨{ g with node := node ((a.map f).get d) } ::
          deliver p.kind ((if (node d).kind = p.kind then [] else escaping p.kind said).map
            (p.key, ·)) frames⟩,
        events ++ said.map (eventAt p.kind (node d :: frames.map (·.node)) said)⟩) := by
    rw [Walk.run_bind, hrun, hframes]
    exact Walk.run_reveal node d hg _ _ _
  obtain ⟨g', hpoll⟩ := run_poll (p := p) hreveal
  rw [Walk.run_attach, hpoll, escaping_enclose,
    events_enclose _ fun s hs => hne _ (List.mem_map_of_mem hs)]
  dsimp only
  rw [hmail, List.append_assoc]
  rfl

end Poster

/-! ## Tours -/

theorem getLast?_of_mem_enclose {x : Nat × Node} {places : List Place} {q : Place}
    (h : q ∈ enclose x places) : q.address.getLast? = some x.1 := by
  rcases List.mem_append.mp h with h | h
  · obtain ⟨r, _, rfl⟩ := List.mem_map.mp h
    rw [Place.address_append, List.getLast?_concat]
  · rw [List.mem_singleton.mp h]
    rfl

theorem Place.ne_nil_of_getLast? {q : Place} {i : Nat} (h : q.address.getLast? = some i) :
    q ≠ [] := by
  rintro rfl
  cases h

theorem Block.tour_eq (b : Block) : b.tour = enclose (0, .block b) (tourFrom 0 b.statements) := by
  cases b; rfl

theorem Statement.tour_type (i : Nat) (d : TypeDecl) :
    (Statement.type d).tour i = enclose (i, .type d) d.body.tour := by
  cases d; rfl

theorem Statement.tour_method {d : MethodDecl} {b : Block} (h : d.body = some b) (i : Nat) :
    (Statement.method d).tour i = enclose (i, .method d) b.tour := by
  cases d; subst h; rfl

theorem Statement.tour_signature {d : MethodDecl} (h : d.body = none) (i : Nat) :
    (Statement.method d).tour i = enclose (i, .method d) [] := by
  cases d; subst h; rfl

/-- All places in a statement end with its number. -/
theorem Statement.getLast?_of_mem_tour {s : Statement} {i : Nat} {q : Place} (h : q ∈ s.tour i) :
    q.address.getLast? = some i := by
  cases s with
  | type d =>
    rw [tour_type] at h
    exact getLast?_of_mem_enclose h
  | method d =>
    cases hb : d.body with
    | none =>
      rw [tour_signature hb] at h
      exact getLast?_of_mem_enclose h
    | some b =>
      rw [tour_method hb] at h
      exact getLast?_of_mem_enclose h
  | vars d =>
    rw [List.mem_singleton.mp h]
    rfl
  | call c =>
    rw [List.mem_singleton.mp h]
    rfl
  | raw r => cases h

theorem getLast?_of_mem_tourFrom {ss : List Statement} {i : Nat} {q : Place}
    (h : q ∈ tourFrom i ss) : ∃ j, i ≤ j ∧ q.address.getLast? = some j := by
  induction ss generalizing i with
  | nil => cases h
  | cons s rest ih =>
    rcases List.mem_append.mp h with h | h
    · exact ⟨i, le_rfl, s.getLast?_of_mem_tour h⟩
    · obtain ⟨j, hj, hlast⟩ := ih h
      exact ⟨j, by omega, hlast⟩

theorem ne_nil_of_mem_tourFrom {ss : List Statement} {i : Nat} {q : Place}
    (h : q ∈ tourFrom i ss) : q ≠ [] := by
  obtain ⟨j, _, hlast⟩ := getLast?_of_mem_tourFrom h
  exact Place.ne_nil_of_getLast? hlast

theorem nodup_enclose {places : List Place} (h : (places.map Place.address).Nodup)
    (hne : ∀ q ∈ places, q ≠ []) (x : Nat × Node) :
    ((enclose x places).map Place.address).Nodup := by
  have hmap : (enclose x places).map Place.address =
      (places.map Place.address).map (· ++ [x.1]) ++ [[x.1]] := by
    simp [enclose, Place.address]
  rw [hmap, List.nodup_append]
  refine ⟨h.map fun a b hab => List.append_left_injective [x.1] hab, List.nodup_singleton _, ?_⟩
  intro a ha b hb heq
  obtain ⟨c, hc, rfl⟩ := List.mem_map.mp ha
  obtain ⟨q, hq, rfl⟩ := List.mem_map.mp hc
  rw [List.mem_singleton.mp hb] at heq
  have hnil : q.address = [] := List.append_left_eq_self.mp heq
  exact hne q hq (List.map_eq_nil_iff.mp hnil)

theorem Block.nodup_tour {b : Block} (h : ((tourFrom 0 b.statements).map Place.address).Nodup) :
    (b.tour.map Place.address).Nodup := by
  rw [b.tour_eq]
  exact nodup_enclose h (fun _ => ne_nil_of_mem_tourFrom) _

theorem Block.ne_nil_of_mem_tour {b : Block} {q : Place} (h : q ∈ b.tour) : q ≠ [] := by
  rw [b.tour_eq] at h
  exact Place.ne_nil_of_getLast? (getLast?_of_mem_enclose h)

theorem nodup_cons_tour {s : Statement} {rest : List Statement} {i : Nat}
    (h : ((s.tour i).map Place.address).Nodup)
    (hrest : ((tourFrom (i + 1) rest).map Place.address).Nodup) :
    ((tourFrom i (s :: rest)).map Place.address).Nodup := by
  rw [tourFrom, List.map_append, List.nodup_append]
  refine ⟨h, hrest, ?_⟩
  intro a ha b hb heq
  obtain ⟨q, hq, rfl⟩ := List.mem_map.mp ha
  obtain ⟨r, hr, rfl⟩ := List.mem_map.mp hb
  obtain ⟨j, hj, hlast⟩ := getLast?_of_mem_tourFrom hr
  rw [← heq, s.getLast?_of_mem_tour hq] at hlast
  have hij : i = j := Option.some.inj hlast
  omega

/-- No two places of a tour have the same address. -/
theorem nodup_tourFrom (ss : List Statement) (i : Nat) :
    ((tourFrom i ss).map Place.address).Nodup := by
  induction ss using statements_induction generalizing i with
  | nil => exact List.nodup_nil
  | type d rest hbody hrest =>
    refine nodup_cons_tour ?_ (hrest _)
    rw [Statement.tour_type]
    exact nodup_enclose (Block.nodup_tour (hbody 0)) (fun _ => Block.ne_nil_of_mem_tour) _
  | method d b rest hb hbody hrest =>
    refine nodup_cons_tour ?_ (hrest _)
    rw [Statement.tour_method hb]
    exact nodup_enclose (Block.nodup_tour (hbody 0)) (fun _ => Block.ne_nil_of_mem_tour) _
  | signature d rest hb hrest =>
    refine nodup_cons_tour ?_ (hrest _)
    rw [Statement.tour_signature hb]
    exact List.nodup_singleton _
  | vars d rest hrest => exact nodup_cons_tour (List.nodup_singleton _) (hrest _)
  | call c rest hrest => exact nodup_cons_tour (List.nodup_singleton _) (hrest _)
  | raw r rest hrest => exact nodup_cons_tour List.nodup_nil (hrest _)

/-! ## Whole traversals -/

namespace Poster

variable {μ : Type} {p : Poster μ}

theorem Tells.block {b : Block}
    (h : p.Tells (p.visitor.visitStatements b.statements) (tourFrom 0 b.statements)) :
    p.Tells (p.visitor.visitBlock b) b.tour := by
  rw [Visitor.visitBlock_eq, b.tour_eq]
  exact h.node (fun _ => ne_nil_of_mem_tourFrom) 0 .block (fun _ => ⟨nofun, nofun⟩) b _

theorem Tells.type {d : TypeDecl} (h : p.Tells (p.visitor.visitBlock d.body) d.body.tour)
    (i : Nat) : p.Tells (p.visitor.visitStatement (.type d)) ((Statement.type d).tour i) := by
  have hvisit : p.Tells (p.visitor.visitType d) ((Statement.type d).tour i) := by
    rw [Visitor.visitType_eq, Statement.tour_type]
    exact h.node (fun _ => Block.ne_nil_of_mem_tour) i .type (fun _ => ⟨nofun, nofun⟩) d _
  exact hvisit.map _

theorem Tells.method {d : MethodDecl} {b : Block} (hb : d.body = some b)
    (h : p.Tells (p.visitor.visitBlock b) b.tour) (i : Nat) :
    p.Tells (p.visitor.visitStatement (.method d)) ((Statement.method d).tour i) := by
  have hvisit : p.Tells (p.visitor.visitMethod d) ((Statement.method d).tour i) := by
    rw [Visitor.visitMethod_of_some _ hb, Statement.tour_method hb]
    exact h.node (fun _ => Block.ne_nil_of_mem_tour) i .method (fun _ => ⟨nofun, nofun⟩) d _
  exact hvisit.map _

theorem Tells.signature {d : MethodDecl} (hb : d.body = none) (i : Nat) :
    p.Tells (p.visitor.visitStatement (.method d)) ((Statement.method d).tour i) := by
  have hvisit : p.Tells (p.visitor.visitMethod d) ((Statement.method d).tour i) := by
    rw [Visitor.visitMethod_of_none _ hb, Statement.tour_signature hb]
    exact (Tells.pure (.kept : Revision MethodDecl)).node (fun _ h => nomatch h) i .method
      (fun _ => ⟨nofun, nofun⟩) d id
  exact hvisit.map _

theorem Tells.cons {s : Statement} {rest : List Statement} {i : Nat}
    (h : p.Tells (p.visitor.visitStatement s) (s.tour i))
    (hrest : p.Tells (p.visitor.visitStatements rest) (tourFrom (i + 1) rest)) :
    p.Tells (p.visitor.visitStatements (s :: rest)) (tourFrom i (s :: rest)) := by
  rw [Visitor.visitStatements_cons]
  exact h.append hrest (fun _ => s.getLast?_of_mem_tour) (fun _ => getLast?_of_mem_tourFrom) _

theorem tells_statements (ss : List Statement) (i : Nat) :
    p.Tells (p.visitor.visitStatements ss) (tourFrom i ss) := by
  induction ss using statements_induction generalizing i with
  | nil => exact Tells.pure _
  | type d rest hbody hrest => exact .cons (.type (.block (hbody 0)) i) (hrest _)
  | method d b rest hb hbody hrest => exact .cons (.method hb (.block (hbody 0)) i) (hrest _)
  | signature d rest hb hrest => exact .cons (.signature hb i) (hrest _)
  | vars d rest hrest =>
    exact .cons ((Tells.leaf i (.vars d) (.inl rfl) fun events => p.vars events d).map _) (hrest _)
  | call c rest hrest =>
    exact .cons ((Tells.leaf i (.call c) (.inr rfl) fun events => p.call events c).map _) (hrest _)
  | raw r rest hrest => exact .cons (Tells.pure _) (hrest _)

theorem tells_unit (u : CompilationUnit) : p.Tells (p.visitor.visitUnit u) u.tour :=
  (tells_statements u.types 0).node (fun _ => ne_nil_of_mem_tourFrom) 0 .unit
    (fun _ => ⟨nofun, nofun⟩) u _

end Poster

/-- The messages of a whole traversal reach the nodes that they are for. What has been noted after
it is, place by place along the tour of the unit: at a leaf, that the cursor showed the chain of
nodes from the leaf up, and that the post succeeded if one of them is of the kind; and at any other
node, the message of the last leaf to which it is the nearest node of the kind, or nothing if it is
of another kind. The chain of nodes on the cursor is the same before and after. -/
theorem messages_reach_nearest {μ : Type} (p : Poster μ) (u : CompilationUnit)
    (frames : List (Frame μ)) :
    let path := frames.map (·.node)
    let after := ((p.visitor.visitUnit u).run ⟨⟨frames⟩, []⟩).2
    after.cursor.path = path ∧ (u.tour.map Place.address).Nodup ∧
      ∃ said : Said μ, said.map (·.1) = u.tour ∧ (∀ s ∈ said, s.2.isSome = s.1.isLeaf) ∧
        after.own = said.map (eventAt p.kind path said) := by
  intro path after
  obtain ⟨a, said, htour, hleaf, hrun⟩ := Poster.tells_unit (p := p) u frames []
  have hafter : after = ⟨⟨deliver p.kind ((escaping p.kind said).map (p.key, ·)) frames⟩,
      [] ++ said.map (eventAt p.kind path said)⟩ := congrArg Prod.snd hrun
  refine ⟨?_, ?_, said, htour, hleaf, ?_⟩
  · rw [hafter]
    exact map_node_deliver _ _ _
  · exact nodup_enclose (nodup_tourFrom u.types 0) (fun _ => ne_nil_of_mem_tourFrom) _
  · rw [hafter, List.nil_append]

end JavaMigration.Source
