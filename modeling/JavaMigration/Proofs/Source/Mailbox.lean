import JavaMigration.Source.Visitor

/-!
# Messages to the nearest node of a kind

What a run of posts does to the frames of a cursor: all messages for one kind of node end up in
one mailbox, the one of the nearest such node, and of each key the latest message is found there.
Posting changes no node of the chain, so that the path is the same before and after.
-/

namespace JavaMigration.Source

variable {μ α : Type}

/-! ## One mailbox -/

/-- Leaves messages in a mailbox, one after another. -/
def Frame.putAll (f : Frame μ) (messages : List (String × μ)) : Frame μ :=
  messages.foldl (fun f m => f.put m.1 m.2) f

/-- The latest message under a key. -/
def latest (key : String) (messages : List (String × μ)) : Option μ :=
  (messages.filter (·.1 == key)).getLast?.map (·.2)

@[simp] theorem latest_nil (key : String) : latest key ([] : List (String × μ)) = none := rfl

theorem latest_append (key : String) (ms ns : List (String × μ)) :
    latest key (ms ++ ns) = (latest key ns).or (latest key ms) := by
  unfold latest
  rw [List.filter_append, List.getLast?_append]
  cases (ns.filter (·.1 == key)).getLast? <;> rfl

@[simp] theorem Frame.node_put (f : Frame μ) (key : String) (message : μ) :
    (f.put key message).node = f.node := rfl

@[simp] theorem Frame.node_putAll (f : Frame μ) (ms : List (String × μ)) :
    (f.putAll ms).node = f.node := by
  unfold putAll
  induction ms generalizing f with
  | nil => rfl
  | cons m ms ih => rw [List.foldl_cons, ih, node_put]

theorem Frame.putAll_append (f : Frame μ) (ms ns : List (String × μ)) :
    f.putAll (ms ++ ns) = (f.putAll ms).putAll ns := List.foldl_append

theorem lookup_filter_ne {key other : String} (h : key ≠ other) (mail : List (String × μ)) :
    (mail.filter (·.1 != other)).lookup key = mail.lookup key := by
  induction mail with
  | nil => rfl
  | cons m mail ih =>
    by_cases hm : m.1 = other
    · have hk : (key == m.1) = false := by simpa [hm] using h
      rw [List.filter_cons_of_neg (by simp [hm]), ih, List.lookup_cons, hk]
    · rw [List.filter_cons_of_pos (by simpa using hm), List.lookup_cons, List.lookup_cons, ih]

theorem Frame.lookup_put (f : Frame μ) (key other : String) (message : μ) :
    (f.put other message).mail.lookup key =
      if key = other then some message else f.mail.lookup key := by
  unfold put
  rw [List.lookup_cons]
  by_cases h : key = other
  · simp [h]
  · rw [if_neg h, lookup_filter_ne h, beq_eq_false_iff_ne.mpr h]

/-- A mailbox holds the latest of the messages put into it, or else what it held before. -/
theorem Frame.lookup_putAll (f : Frame μ) (key : String) (ms : List (String × μ)) :
    (f.putAll ms).mail.lookup key = (latest key ms).or (f.mail.lookup key) := by
  induction ms generalizing f with
  | nil => rfl
  | cons m ms ih =>
    have hcons : f.putAll (m :: ms) = (f.put m.1 m.2).putAll ms := rfl
    rw [hcons, ih, lookup_put, show m :: ms = [m] ++ ms from rfl, latest_append]
    cases latest key ms with
    | some x => rfl
    | none =>
      by_cases h : key = m.1
      · simp [latest, h]
      · have hm : (m.1 == key) = false := beq_eq_false_iff_ne.mpr (Ne.symm h)
        simp [latest, h, hm]

/-! ## The chain of frames -/

/-- Leaves messages at the nearest node of a kind; without one they are lost. -/
def deliver (kind : NodeKind) (messages : List (String × μ)) : List (Frame μ) → List (Frame μ)
  | [] => []
  | f :: r => if f.node.kind = kind then f.putAll messages :: r else f :: deliver kind messages r

theorem deliver_cons_self {kind : NodeKind} {f : Frame μ} (h : f.node.kind = kind)
    (ms : List (String × μ)) (r : List (Frame μ)) :
    deliver kind ms (f :: r) = f.putAll ms :: r := if_pos h

theorem deliver_cons_ne {kind : NodeKind} {f : Frame μ} (h : f.node.kind ≠ kind)
    (ms : List (String × μ)) (r : List (Frame μ)) :
    deliver kind ms (f :: r) = f :: deliver kind ms r := if_neg h

@[simp] theorem deliver_nil (kind : NodeKind) (frames : List (Frame μ)) :
    deliver kind [] frames = frames := by
  induction frames with
  | nil => rfl
  | cons f r ih =>
    unfold deliver
    split
    · rfl
    · rw [ih]

theorem deliver_append (kind : NodeKind) (ms ns : List (String × μ)) (frames : List (Frame μ)) :
    deliver kind (ms ++ ns) frames = deliver kind ns (deliver kind ms frames) := by
  induction frames with
  | nil => rfl
  | cons f r ih =>
    by_cases h : f.node.kind = kind
    · rw [deliver_cons_self h, deliver_cons_self h, deliver_cons_self (by simpa using h),
        Frame.putAll_append]
    · rw [deliver_cons_ne h, deliver_cons_ne h, deliver_cons_ne h, ih]

/-- Messages leave the nodes of the chain alone. -/
@[simp] theorem map_node_deliver (kind : NodeKind) (ms : List (String × μ))
    (frames : List (Frame μ)) : (deliver kind ms frames).map (·.node) = frames.map (·.node) := by
  induction frames with
  | nil => rfl
  | cons f r ih =>
    by_cases h : f.node.kind = kind
    · rw [deliver_cons_self h, List.map_cons, Frame.node_putAll, List.map_cons]
    · rw [deliver_cons_ne h, List.map_cons, ih, List.map_cons]

theorem postTo_getD (kind : NodeKind) (key : String) (message : μ) (frames : List (Frame μ)) :
    (Cursor.postTo kind key message frames).getD frames =
      deliver kind [(key, message)] frames := by
  induction frames with
  | nil => rfl
  | cons f r ih =>
    unfold Cursor.postTo
    by_cases h : f.node.kind = kind
    · rw [if_pos h, deliver_cons_self h]
      rfl
    · rw [if_neg h, deliver_cons_ne h, ← ih]
      cases Cursor.postTo kind key message r <;> rfl

/-- Posting one message is delivering it. -/
theorem Cursor.post_snd (c : Cursor μ) (kind : NodeKind) (key : String) (message : μ) :
    (c.post kind key message).2 = ⟨deliver kind [(key, message)] c.frames⟩ := by
  unfold Cursor.post
  rw [← postTo_getD]
  cases Cursor.postTo kind key message c.frames <;> rfl

/-! ## Cursors and their paths -/

/-- The cursor over a chain of nodes with empty mailboxes. -/
def Cursor.ofPath (path : List Node) : Cursor μ := ⟨path.map fun node => { node }⟩

@[simp] theorem Cursor.path_ofPath (path : List Node) :
    (Cursor.ofPath path : Cursor μ).path = path := by
  unfold Cursor.path Cursor.ofPath
  rw [List.map_map]
  exact List.map_id' path

theorem Cursor.node?_eq (c : Cursor μ) : c.node? = c.path.head? := by
  unfold Cursor.node? Cursor.path
  rw [List.head?_map]

theorem Cursor.parent?_eq (c : Cursor μ) : c.parent? = c.path.tail.head? := by
  unfold Cursor.parent? Cursor.path
  rw [← List.map_tail, List.head?_map]

end JavaMigration.Source
