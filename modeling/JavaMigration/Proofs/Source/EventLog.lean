import Mathlib.Data.List.Forall2
import JavaMigration.Proofs.Source.Mailbox

/-!
# A cursor as a log of events

A history lists what was done to an empty cursor, the latest operation first. It tells which frames
there are, and which operation was the last to touch a key of a frame since the frame was entered.
The cursor behaves as this log says (`followsLog_cursorAfter`): what is polled was posted by the
last operation that touched the key of the current frame.
-/

namespace JavaMigration.Source

variable {μ α : Type}

/-! ## Histories -/

/-- Something that is done to a cursor. A poll tries to read the message as one of its type. -/
inductive Operation (μ : Type) : Type 1
  | push (node : Node)
  | pop
  | setNode (node : Node)
  | post (kind : NodeKind) (key : String) (message : μ)
  | poll {α : Type} (read : μ → Option α) (key : String)

namespace Operation

def run : Operation μ → Cursor μ → Cursor μ
  | push node, c => c.push node
  | pop, c => c.pop
  | setNode node, c => c.setNode node
  | post kind key message, c => (c.post kind key message).2
  | poll read key, c => (c.poll read key).2

/-- The key that a post or a poll is about. -/
def key? : Operation μ → Option String
  | post _ key _ | poll _ key => some key
  | push _ | pop | setNode _ => none

/-- The message that an operation leaves. -/
def message? : Operation μ → Option μ
  | post _ _ message => some message
  | push _ | pop | setNode _ | poll _ _ => none

end Operation

/-- The cursor that a history of operations has led to. -/
def cursorAfter : List (Operation μ) → Cursor μ
  | [] => {}
  | op :: past => op.run (cursorAfter past)

/-! ## What a history tells -/

/-- A frame without its mailbox, and the number of operations before it was entered. -/
structure Entry where
  born : Nat
  node : Node

/-- The frames that were entered and not left, the current one first. -/
def live : List (Operation μ) → List Entry
  | [] => []
  | .push node :: past => ⟨past.length, node⟩ :: live past
  | .pop :: past => (live past).tail
  | .setNode node :: past =>
    match live past with
    | [] => []
    | current :: rest => { current with node } :: rest
  | .post .. :: past | .poll .. :: past => live past

/-- The frame whose mailbox an operation changes: a post that of the innermost frame of its kind, a
poll that of the current frame. -/
def Operation.target? : Operation μ → List Entry → Option Entry
  | .post kind _ _, entries => entries.find? (·.node.kind = kind)
  | .poll _ _, entries => entries.head?
  | .push _, _ | .pop, _ | .setNode _, _ => none

/-- Whether an operation changes what is under a key of the frame that was entered at a time. -/
def Operation.Touches (op : Operation μ) (entries : List Entry) (key : String) (born : Nat) :
    Prop :=
  op.key? = some key ∧ (op.target? entries).map (·.born) = some born

instance (op : Operation μ) (entries : List Entry) (key : String) (born : Nat) :
    Decidable (op.Touches entries key born) := inferInstanceAs (Decidable (_ ∧ _))

/-- The latest operation that touched a key of a frame. -/
def lastTouch (key : String) (born : Nat) : List (Operation μ) → Option (Operation μ)
  | [] => none
  | op :: past => if op.Touches (live past) key born then some op else lastTouch key born past

/-- What is under a key of a frame if each operation replaces what was there. -/
def held (key : String) (born : Nat) (history : List (Operation μ)) : Option μ :=
  (lastTouch key born history).bind Operation.message?

/-- What a history tells about the cursor it has led to. -/
structure FollowsLog (history : List (Operation μ)) (c : Cursor μ) : Prop where
  /-- The frames are those that are live. -/
  path : c.path = (live history).map (·.node)
  /-- A post says whether some live frame is of the kind. -/
  posts (kind : NodeKind) (key : String) (message : μ) :
    (c.post kind key message).1 = true ↔ ∃ entry ∈ live history, entry.node.kind = kind
  /-- A post changes the innermost frame of the kind, under its key, and nothing else. -/
  innermost (kind : NodeKind) (key : String) (message : μ) :
    (c.post kind key message).2 = c ∧ (∀ f ∈ c.frames, f.node.kind ≠ kind) ∨
      ∃ near f g far, c.frames = near ++ f :: far ∧ (∀ f ∈ near, f.node.kind ≠ kind) ∧
        f.node.kind = kind ∧ (c.post kind key message).2.frames = near ++ g :: far ∧
        g.node = f.node ∧
        ∀ other, g.mail.lookup other = if other = key then some message else f.mail.lookup other
  /-- A poll answers with the message of a post that is the last to have touched the key. -/
  polls {α : Type} (read : μ → Option α) (key : String) (x : α) :
    (c.poll read key).1 = some x ↔
      ∃ current kind message, (live history).head? = some current ∧
        lastTouch key current.born history = some (.post kind key message) ∧ read message = some x
  /-- A message is gone once it is polled, also if it was of another type. -/
  consumes {α β : Type} (read : μ → Option α) (again : μ → Option β) (key : String) :
    ((c.poll read key).2.poll again key).1 = none
  /-- A node is replaced without its mailbox. -/
  mailboxes (node : Node) : (c.setNode node).frames.map (·.mail) = c.frames.map (·.mail)
  /-- A frame is left with its mailbox, and the others stay. -/
  discards : c.pop.frames = c.frames.tail
  /-- A frame is entered with an empty mailbox. -/
  fresh {α : Type} (node : Node) (read : μ → Option α) (key : String) :
    ((c.push node).poll read key).1 = none
  /-- The nodes below the current one stay. -/
  nodes (op : Operation μ) : c.path.tail <:+ (op.run c).path

/-! ## Frames are told apart by their births -/

theorem mem_of_target? {op : Operation μ} {entries : List Entry} {entry : Entry}
    (h : op.target? entries = some entry) : entry ∈ entries := by
  cases op with
  | post kind key message => exact List.mem_of_find?_eq_some h
  | poll read key => exact List.mem_of_head? h
  | _ => cases h

/-- Frames further in were entered later. -/
theorem pairwise_born (history : List (Operation μ)) :
    (history.length :: (live history).map (·.born)).Pairwise (· > ·) := by
  have hlonger : ∀ {n : Nat} {births fewer : List Nat}, (n :: births).Pairwise (· > ·) →
      fewer.Sublist births → ((n + 1) :: fewer).Pairwise (· > ·) := by
    intro n births fewer h hsub
    rw [List.pairwise_cons] at h ⊢
    exact ⟨fun b hb => Nat.lt_succ_of_lt (h.1 b (hsub.subset hb)), h.2.sublist hsub⟩
  induction history with
  | nil => exact List.pairwise_singleton _ _
  | cons op past ih =>
    cases op with
    | push node =>
      refine List.pairwise_cons.mpr ⟨fun b hb => ?_, ih⟩
      rcases List.mem_cons.mp hb with rfl | hb
      · exact Nat.lt_succ_self _
      · exact Nat.lt_succ_of_lt (List.rel_of_pairwise_cons ih hb)
    | pop => exact hlonger ih ((List.tail_sublist _).map _)
    | setNode node =>
      have hsame : (live (.setNode node :: past)).map (·.born) = (live past).map (·.born) := by
        rw [live]
        cases live past <;> rfl
      exact hsame ▸ hlonger ih (.refl _)
    | post kind key message => exact hlonger ih (.refl _)
    | poll read key => exact hlonger ih (.refl _)

theorem born_lt {history : List (Operation μ)} {entry : Entry} (h : entry ∈ live history) :
    entry.born < history.length :=
  List.rel_of_pairwise_cons (pairwise_born history) (List.mem_map_of_mem h)

/-- Nothing has touched a frame that is still to be entered. -/
theorem held_of_le {history : List (Operation μ)} {born : Nat} (h : history.length ≤ born)
    (key : String) : held key born history = none := by
  induction history with
  | nil => rfl
  | cons op past ih =>
    have hnot : ¬op.Touches (live past) key born := by
      rintro ⟨-, htarget⟩
      obtain ⟨entry, hentry, rfl⟩ := Option.map_eq_some_iff.mp htarget
      exact absurd (born_lt (mem_of_target? hentry)) (by simp_all; omega)
    rw [held, lastTouch, if_neg hnot]
    exact ih (Nat.le_of_succ_le h)

theorem held_cons {op : Operation μ} {past : List (Operation μ)} {key : String} {born : Nat} :
    held key born (op :: past) =
      if op.Touches (live past) key born then op.message? else held key born past := by
  rw [held, lastTouch]
  split <;> rfl

theorem key?_of_lastTouch {history : List (Operation μ)} {key : String} {born : Nat}
    {op : Operation μ} (h : lastTouch key born history = some op) : op.key? = some key := by
  induction history with
  | nil => cases h
  | cons latest past ih =>
    rw [lastTouch] at h
    split at h
    · next htouches => exact Option.some.inj h ▸ htouches.1
    · exact ih h

/-- What is under a key was left by a post. -/
theorem held_eq_some_iff {history : List (Operation μ)} {key : String} {born : Nat} {message : μ} :
    held key born history = some message ↔
      ∃ kind, lastTouch key born history = some (.post kind key message) := by
  unfold held
  constructor
  · intro h
    obtain ⟨op, hop, hmessage⟩ := Option.bind_eq_some_iff.mp h
    have hkey := key?_of_lastTouch hop
    cases op with
    | post kind other left =>
      cases hkey
      cases hmessage
      exact ⟨kind, hop⟩
    | _ => cases hmessage
  · rintro ⟨kind, h⟩
    rw [h]
    rfl

/-! ## One operation -/

/-- The frame has the node that the log has for it, and holds what the log says. -/
structure Entry.Describes (history : List (Operation μ)) (entry : Entry) (f : Frame μ) : Prop where
  node : f.node = entry.node
  mail (key : String) : f.mail.lookup key = held key entry.born history

variable {past : List (Operation μ)} {op : Operation μ} {entry : Entry} {f : Frame μ}

/-- A frame that an operation does not touch holds what it held before. -/
theorem Entry.Describes.of_not_target (h : entry.Describes past f)
    (hnot : (op.target? (live past)).map (·.born) ≠ some entry.born) :
    entry.Describes (op :: past) f :=
  ⟨h.node, fun key => by rw [held_cons, if_neg fun htouches => hnot htouches.2, h.mail]⟩

/-- What the log has for a frame that an operation touches under its key. -/
theorem held_of_target {key other : String} (hkey : op.key? = some key)
    (htarget : op.target? (live past) = some entry) :
    held other entry.born (op :: past) =
      if other = key then op.message? else held other entry.born past := by
  rw [held_cons]
  by_cases h : other = key
  · rw [if_pos ⟨h ▸ hkey, by rw [htarget]; rfl⟩, if_pos h]
  · rw [if_neg fun htouches => h (Option.some.inj (htouches.1.symm.trans hkey)), if_neg h]

/-- A post ends at the innermost frame of its kind. -/
theorem postTo_cases (kind : NodeKind) (key : String) (message : μ) (frames : List (Frame μ)) :
    Cursor.postTo kind key message frames = none ∧ (∀ f ∈ frames, f.node.kind ≠ kind) ∨
      ∃ near f far, frames = near ++ f :: far ∧ (∀ f ∈ near, f.node.kind ≠ kind) ∧
        f.node.kind = kind ∧
        Cursor.postTo kind key message frames = some (near ++ f.put key message :: far) := by
  induction frames with
  | nil => exact .inl ⟨rfl, nofun⟩
  | cons f frames ih =>
    unfold Cursor.postTo
    by_cases hkind : f.node.kind = kind
    · exact .inr ⟨[], f, frames, rfl, nofun, hkind, if_pos hkind⟩
    · rw [if_neg hkind]
      rcases ih with ⟨hnone, hall⟩ | ⟨near, g, far, rfl, hnear, hg, hsome⟩
      · exact .inl ⟨by rw [hnone]; rfl, List.forall_mem_cons.mpr ⟨hkind, hall⟩⟩
      · exact .inr ⟨f :: near, g, far, rfl, List.forall_mem_cons.mpr ⟨hkind, hnear⟩, hg,
          by rw [hsome]; rfl⟩

theorem lookup_take (mail : List (String × μ)) (other key : String) :
    (mail.filter (·.1 != key)).lookup other = if other = key then none else mail.lookup other := by
  by_cases h : other = key
  · rw [if_pos h, h, List.lookup_eq_none_iff]
    intro m hm
    have hne : (m.1 != key) = true := (List.mem_filter.mp hm).2
    rwa [bne_comm] at hne
  · rw [if_neg h, lookup_filter_ne h]

/-- The log describes the frames one by one. -/
def Describes (history : List (Operation μ)) (frames : List (Frame μ)) : Prop :=
  List.Forall₂ (Entry.Describes history) (live history) frames

theorem map_node_eq {history : List (Operation μ)} {entries : List Entry} {frames : List (Frame μ)}
    (h : List.Forall₂ (Entry.Describes history) entries frames) :
    frames.map (·.node) = entries.map (·.node) := by
  induction h with
  | nil => rfl
  | cons hf _ ih => rw [List.map_cons, List.map_cons, hf.node, ih]

/-- A search for a kind of node finds no entry if there is no such frame. -/
theorem find?_entries_eq_none {history : List (Operation μ)} {entries : List Entry}
    {frames : List (Frame μ)} {kind : NodeKind}
    (h : List.Forall₂ (Entry.Describes history) entries frames)
    (hkind : ∀ f ∈ frames, f.node.kind ≠ kind) : entries.find? (·.node.kind = kind) = none := by
  have hnodes : ∀ node ∈ entries.map (·.node), node.kind ≠ kind :=
    map_node_eq h ▸ List.forall_mem_map.mpr hkind
  rw [List.find?_eq_none]
  exact fun entry hentry => by simpa using List.forall_mem_map.mp hnodes entry hentry

section Step

variable {frames : List (Frame μ)}

theorem Describes.push (h : Describes past frames) (node : Node) :
    Describes (.push node :: past) ({ node } :: frames) := by
  refine .cons ⟨rfl, fun key => ?_⟩ (h.imp fun _ _ hf => hf.of_not_target nofun)
  rw [held_cons, if_neg nofun, held_of_le (Nat.le_refl _)]
  rfl

theorem Describes.pop (h : Describes past frames) : Describes (.pop :: past) frames.tail := by
  unfold Describes at h ⊢
  rw [live]
  generalize live past = entries at h
  cases h with
  | nil => exact .nil
  | cons _ hrest => exact hrest.imp fun _ _ hf => hf.of_not_target nofun

theorem Describes.setNode (h : Describes past frames) (node : Node) :
    Describes (.setNode node :: past) (Cursor.setNode ⟨frames⟩ node).frames := by
  unfold Describes at h ⊢
  unfold Cursor.setNode
  rw [live]
  generalize live past = entries at h
  cases h with
  | nil => exact .nil
  | cons hf hrest =>
    have hcurrent : Entry.Describes (.setNode node :: past) _ _ := hf.of_not_target nofun
    exact .cons ⟨rfl, hcurrent.mail⟩ (hrest.imp fun _ _ hf => hf.of_not_target nofun)

/-- An operation that touches one frame under a key leaves the others. -/
theorem Describes.touch {near far : List (Frame μ)} {g : Frame μ} {entries rest : List Entry}
    {key : String} (hlive : live past = entries ++ entry :: rest)
    (hnear : List.Forall₂ (Entry.Describes past) entries near) (hf : entry.Describes past f)
    (hfar : List.Forall₂ (Entry.Describes past) rest far) (hkey : op.key? = some key)
    (htarget : op.target? (live past) = some entry) (hsame : live (op :: past) = live past)
    (hnode : g.node = f.node)
    (hmail : ∀ other, g.mail.lookup other =
      if other = key then op.message? else f.mail.lookup other) :
    Describes (op :: past) (near ++ g :: far) := by
  have hborn := (pairwise_born past).of_cons
  rw [hlive, List.map_append, List.map_cons, List.pairwise_append, List.pairwise_cons] at hborn
  obtain ⟨-, ⟨hbehind, -⟩, hfront⟩ := hborn
  have hothers : ∀ other ∈ entries ++ rest, (op.target? (live past)).map (·.born) ≠
      some other.born := by
    intro other hother heq
    rw [htarget] at heq
    have heq : entry.born = other.born := Option.some.inj heq
    rcases List.mem_append.mp hother with hother | hother
    · have := hfront _ (List.mem_map_of_mem hother) _ List.mem_cons_self
      omega
    · have := hbehind _ (List.mem_map_of_mem hother)
      omega
  have hkept : ∀ {some : List Entry} {frames : List (Frame μ)},
      (∀ other ∈ some, other ∈ entries ++ rest) → List.Forall₂ (Entry.Describes past) some frames →
        List.Forall₂ (Entry.Describes (op :: past)) some frames := fun hsub hall =>
    ((List.forall₂_and_left _ _).mpr ⟨hsub, hall⟩).imp fun other _ hother =>
      hother.2.of_not_target (hothers other hother.1)
  have htouched : entry.Describes (op :: past) g :=
    ⟨hnode.trans hf.node, fun other => by rw [hmail, held_of_target hkey htarget, hf.mail]⟩
  unfold Describes
  rw [hsame, hlive]
  exact List.rel_append (hkept (fun _ => List.mem_append_left _) hnear)
    (.cons htouched (hkept (fun _ => List.mem_append_right _) hfar))

/-- Where the frames are taken apart, the entries are too. -/
theorem Describes.split {near far : List (Frame μ)} (h : Describes past (near ++ f :: far)) :
    ∃ entries entry rest, live past = entries ++ entry :: rest ∧
      List.Forall₂ (Entry.Describes past) entries near ∧ entry.Describes past f ∧
      List.Forall₂ (Entry.Describes past) rest far := by
  have hnear := List.forall₂_take_append _ near _ h
  have hrest := List.forall₂_drop_append _ near _ h
  obtain ⟨entry, rest, hf, hfar, hdrop⟩ := List.forall₂_cons_right_iff.mp hrest
  exact ⟨_, entry, rest, hdrop ▸ (List.take_append_drop _ _).symm, hnear, hf, hfar⟩

theorem Describes.post (h : Describes past frames) (kind : NodeKind) (key : String) (message : μ) :
    Describes (.post kind key message :: past)
      (Cursor.post ⟨frames⟩ kind key message).2.frames := by
  unfold Cursor.post
  rcases postTo_cases kind key message frames with ⟨hnone, hall⟩ |
    ⟨near, f, far, rfl, hnear, hkind, hsome⟩
  · rw [hnone]
    refine h.imp fun _ _ hf => hf.of_not_target ?_
    rw [Operation.target?, find?_entries_eq_none h hall]
    nofun
  · rw [hsome]
    obtain ⟨entries, entry, rest, hlive, hentries, hf, hrest⟩ := h.split
    refine Describes.touch hlive hentries hf hrest rfl ?_ rfl rfl (f.lookup_put · key message)
    rw [Operation.target?, hlive, List.find?_append, find?_entries_eq_none hentries hnear,
      Option.none_or]
    exact List.find?_cons_of_pos (by simpa [← hf.node] using hkind)

theorem Describes.poll (h : Describes past frames) (read : μ → Option α) (key : String) :
    Describes (.poll read key :: past) (Cursor.poll ⟨frames⟩ read key).2.frames := by
  cases frames with
  | nil =>
    have hlive : live past = [] := List.forall₂_nil_right_iff.mp h
    exact h.imp fun _ _ hf => hf.of_not_target (by rw [hlive]; nofun)
  | cons f far =>
    have hsplit : Describes past ([] ++ f :: far) := h
    obtain ⟨entries, entry, rest, hlive, hentries, hf, hrest⟩ := hsplit.split
    cases hentries
    refine Describes.touch hlive .nil hf hrest rfl ?_ rfl rfl fun other => ?_
    · rw [hlive]
      rfl
    · exact lookup_take f.mail other key

end Step

theorem describes_cursorAfter (history : List (Operation μ)) :
    Describes history (cursorAfter history).frames := by
  induction history with
  | nil => exact .nil
  | cons op past ih =>
    cases op with
    | push node => exact ih.push node
    | pop => exact ih.pop
    | setNode node => exact ih.setNode node
    | post kind key message => exact ih.post kind key message
    | poll read key => exact ih.poll read key

/-! ## The cursor -/

/-- Posting leaves the nodes. -/
theorem path_post (c : Cursor μ) (kind : NodeKind) (key : String) (message : μ) :
    (c.post kind key message).2.path = c.path := by
  rw [Cursor.post_snd]
  exact map_node_deliver kind _ c.frames

/-- Whatever is done to a cursor, the nodes below the current one stay. -/
theorem tail_path_suffix (op : Operation μ) (c : Cursor μ) : c.path.tail <:+ (op.run c).path := by
  cases op with
  | push node => exact (List.tail_suffix _).trans (List.suffix_cons _ _)
  | pop =>
    rw [Cursor.path, ← List.map_tail]
    exact List.suffix_rfl
  | setNode node =>
    obtain ⟨_ | ⟨f, far⟩⟩ := c
    · exact List.suffix_rfl
    · exact List.suffix_cons _ _
  | post kind key message =>
    rw [Operation.run, path_post]
    exact List.tail_suffix _
  | poll read key =>
    obtain ⟨_ | ⟨f, far⟩⟩ := c
    · exact List.suffix_rfl
    · exact List.suffix_cons _ _

/-- A post is answered by whether there is a node of the kind. -/
theorem post_fst_iff (c : Cursor μ) (kind : NodeKind) (key : String) (message : μ) :
    (c.post kind key message).1 = true ↔ ∃ node ∈ c.path, node.kind = kind := by
  unfold Cursor.post Cursor.path
  rcases postTo_cases kind key message c.frames with ⟨hnone, hall⟩ |
    ⟨near, f, far, hframes, -, hkind, hsome⟩
  · rw [hnone]
    simpa using hall
  · rw [hsome, hframes]
    exact iff_of_true rfl ⟨f.node, by simp, hkind⟩

/-- A poll is answered from the current mailbox. -/
theorem poll_fst (c : Cursor μ) (read : μ → Option α) (key : String) :
    (c.poll read key).1 = c.frames.head?.bind fun f => (f.mail.lookup key).bind read := by
  obtain ⟨_ | ⟨f, far⟩⟩ := c <;> rfl

/-- A cursor is at any time what the log of its operations tells. -/
theorem followsLog_cursorAfter (history : List (Operation μ)) :
    FollowsLog history (cursorAfter history) where
  path := map_node_eq (describes_cursorAfter history)
  posts kind key message := by
    rw [post_fst_iff, Cursor.path, map_node_eq (describes_cursorAfter history)]
    simp only [List.mem_map, exists_exists_and_eq_and]
  innermost kind key message := by
    rw [Cursor.post]
    rcases postTo_cases kind key message (cursorAfter history).frames with ⟨hnone, hall⟩ |
      ⟨near, f, far, hframes, hnear, hkind, hsome⟩
    · rw [hnone]
      exact .inl ⟨rfl, hall⟩
    · rw [hsome]
      exact .inr ⟨near, f, f.put key message, far, hframes, hnear, hkind, rfl, rfl,
        (f.lookup_put · key message)⟩
  polls read key x := by
    have hheld : (cursorAfter history).frames.head?.bind (·.mail.lookup key) =
        (live history).head?.bind fun current => held key current.born history := by
      have h : List.Forall₂ _ _ _ := describes_cursorAfter history
      generalize live history = entries at h ⊢
      generalize (cursorAfter history).frames = frames at h ⊢
      cases h with
      | nil => rfl
      | cons hf _ => exact hf.mail key
    rw [poll_fst, ← Option.bind_assoc, hheld, Option.bind_assoc]
    simp only [Option.bind_eq_some_iff, held_eq_some_iff]
    constructor
    · rintro ⟨current, hcurrent, message, ⟨kind, htouch⟩, hread⟩
      exact ⟨current, kind, message, hcurrent, htouch, hread⟩
    · rintro ⟨current, kind, message, hcurrent, htouch, hread⟩
      exact ⟨current, hcurrent, message, ⟨kind, htouch⟩, hread⟩
  consumes read again key := by
    rw [poll_fst]
    obtain ⟨_ | ⟨f, far⟩⟩ := cursorAfter history
    · rfl
    · rw [Cursor.poll]
      dsimp only [List.head?_cons, Option.bind_some]
      rw [lookup_take, if_pos rfl]
      rfl
  mailboxes node := by
    obtain ⟨_ | ⟨f, far⟩⟩ := cursorAfter history <;> rfl
  discards := rfl
  fresh node read key := rfl
  nodes op := tail_path_suffix op _

end JavaMigration.Source
