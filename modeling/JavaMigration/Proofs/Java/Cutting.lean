import JavaMigration.Proofs.Java.Braces

/-!
# Cutting a source at the end of a line

In front of a closing brace that begins the last line, a source is lexed as it would be without
that line (`lexFrom_append_closing`): no lexeme and no comment reaches from one line into the next
unless it closes behind it, and a closing brace closes neither comments nor strings.
-/

namespace JavaMigration.Java

open Text Source

/-- The last line of a source: a closing brace. -/
def closing : List Char := ['\x7d', '\n']

/-- The text is empty or ends with a line. -/
def EndsLine (s : List Char) : Prop := ∀ c ∈ s.getLast?, c = '\n'

namespace EndsLine

variable {s r : List Char} {c : Char}

theorem of_suffix (h : EndsLine s) (hr : r <:+ s) : EndsLine r := by
  obtain ⟨front, rfl⟩ := hr
  intro c hc
  exact h c (by rw [List.getLast?_append, hc, Option.some_or]; rfl)

theorem tail (h : EndsLine (c :: s)) : EndsLine s := h.of_suffix (List.suffix_cons c s)

/-- Behind a character within a line there is something more. -/
theorem ne_nil (h : EndsLine (c :: s)) (hc : c ≠ '\n') : s ≠ [] := by
  rintro rfl
  exact hc (h c rfl)

end EndsLine

theorem endsLine_concat (s : List Char) : EndsLine (s ++ ['\n']) := by
  intro c hc
  rw [List.getLast?_concat] at hc
  exact (Option.some.inj hc).symm

/-! ## Numbers -/

/-- The reader stops in front of the character. -/
def Stops (e : Char) (f : List Char → Option (List Char)) : Prop :=
  ∀ s back, f (s ++ e :: back) = (f s).map (· ++ e :: back)

section

variable {e : Char} {back : List Char}

theorem Stops.bind {f g : List Char → Option (List Char)} (hf : Stops e f) (hg : Stops e g) :
    Stops e fun s => f s >>= g := by
  intro s back
  show (f (s ++ e :: back)).bind g = ((f s).bind g).map (· ++ e :: back)
  rw [hf s, Option.bind_map, Option.map_bind]
  exact Option.bind_congr fun r _ => hg r back

theorem Stops.maybe {f : List Char → Option (List Char)} (hf : Stops e f) :
    Stops e (maybe f) := by
  intro s back
  rw [Java.maybe, Java.maybe, hf s]
  cases f s <;> rfl

theorem stops_oneOf {cs : List Char} (hcs : e ∉ cs) : Stops e (oneOf cs) := by
  intro s back
  cases s with
  | nil => exact if_neg (by simpa using hcs)
  | cons c s =>
    rw [List.cons_append, oneOf, oneOf]
    split <;> rfl

theorem takeWhile_append_stop {p : Char → Bool} (hp : p e = false) (s : List Char) :
    (s ++ e :: back).takeWhile p = s.takeWhile p := by
  induction s with
  | nil => exact List.takeWhile_cons_of_neg (by simp [hp])
  | cons c s ih =>
    rw [List.cons_append, List.takeWhile_cons, List.takeWhile_cons, ih]

theorem dropWhile_append_stop {p : Char → Bool} (hp : p e = false) (s : List Char) :
    (s ++ e :: back).dropWhile p = s.dropWhile p ++ e :: back := by
  induction s with
  | nil => exact List.dropWhile_cons_of_neg (by simp [hp])
  | cons c s ih =>
    rw [List.cons_append, List.dropWhile_cons, List.dropWhile_cons, ih]
    split <;> rfl

theorem any_head?_append_stop {p : Char → Bool} (hp : p e = false) (s : List Char) :
    (s ++ e :: back).head?.any p = s.head?.any p := by
  cases s with
  | nil => exact hp
  | cons c s => rfl

theorem stops_digits {p : Char → Bool} (hp : p e = false) (hbar : e ≠ '_') :
    Stops e (digits p) := by
  intro s back
  have hrun : (p e || e == '_') = false := by rw [hp, beq_false_of_ne hbar]; rfl
  unfold digits
  rw [any_head?_append_stop hp,
    takeWhile_append_stop (p := fun c => p c || c == '_') hrun]
  split
  · extract_lets run
    rw [Option.map_some, List.drop_append_of_le_length]
    refine (upToDigit_le _).trans (le_trans ?_ (List.takeWhile_prefix fun c => p c || c == '_').length_le)
    cases hpart : upTo ['_', '_'] run with
    | none => exact Nat.le_refl _
    | some part => exact length_upTo_le hpart
  · rfl

/-- Behind its first digit, a number without leading zeros goes on with digits, if it does. -/
theorem plainInteger_cons {c : Char} (hc : c ≠ '0') (r : List Char) :
    plainInteger (c :: r) =
      if c.isDigit then
        if (if r.head? = some '_' then r.tail else r).head?.any Char.isDigit then
          some ((if r.head? = some '_' then r.tail else r).drop
            (upToDigit ((if r.head? = some '_' then r.tail else r).takeWhile
              fun c => c.isDigit || c == '_')))
        else some r
      else none := by
  unfold plainInteger
  split
  · next heq => cases heq
  · next heq =>
    cases heq
    exact absurd rfl hc
  · next heq =>
    cases heq
    extract_lets rest
    have hrest : rest = if r.head? = some '_' then r.tail else r := by
      unfold rest
      split
      · rfl
      · next hne =>
        rw [if_neg]
        intro hhead
        obtain ⟨t, ht⟩ := List.head?_eq_some_iff.mp hhead
        exact hne t ht
    rw [hrest]

theorem stops_plainInteger (hdigit : e.isDigit = false) (hbar : e ≠ '_') :
    Stops e plainInteger := by
  intro s back
  cases s with
  | nil =>
    have hzero : e ≠ '0' := by
      rintro rfl
      cases hdigit
    rw [List.nil_append, plainInteger_cons hzero, if_neg (by simp [hdigit])]
    rfl
  | cons c r =>
    by_cases hzero : c = '0'
    · subst hzero
      rfl
    · have hhead : (r ++ e :: back).head? = some '_' ↔ r.head? = some '_' := by
        cases r with
        | nil => simp [hbar]
        | cons d r => exact Iff.rfl
      have hrest : (if (r ++ e :: back).head? = some '_' then (r ++ e :: back).tail
          else r ++ e :: back) =
          (if r.head? = some '_' then r.tail else r) ++ e :: back := by
        simp only [hhead]
        split
        · next h =>
          obtain ⟨t, rfl⟩ := List.head?_eq_some_iff.mp h
          rfl
        · rfl
      have hrun : (e.isDigit || e == '_') = false := by rw [hdigit, beq_false_of_ne hbar]; rfl
      rw [List.cons_append, plainInteger_cons hzero, plainInteger_cons hzero, hrest,
        any_head?_append_stop hdigit,
        takeWhile_append_stop (p := fun c => c.isDigit || c == '_') hrun]
      generalize (if r.head? = some '_' then r.tail else r) = rest
      split
      · split
        · rw [Option.map_some, List.drop_append_of_le_length]
          exact (upToDigit_le _).trans (List.takeWhile_prefix _).length_le
        · rfl
      · rfl

/-- No number reaches over a brace or a semicolon. -/
theorem stops_numberForms (he : e ∈ ['\x7d', ';']) : ∀ f ∈ numberForms, Stops e f := by
  have hchar : ∀ {p : Char → Bool}, (['\x7d', ';'].all fun c => !p c) → p e = false := by
    intro p hp
    simpa using List.all_eq_true.mp hp e he
  have hbar : e ≠ '_' := ne_of_beq_false (hchar (p := (· == '_')) rfl)
  have hset : ∀ {cs : List Char}, (['\x7d', ';'].all fun c => !cs.contains c) →
      Stops e (oneOf cs) := by
    intro cs hcs
    exact stops_oneOf (by simpa using hchar (p := cs.contains) hcs)
  have hrun : ∀ {p : Char → Bool}, (['\x7d', ';'].all fun c => !p c) → Stops e (digits p) :=
    fun hp => stops_digits (hchar hp) hbar
  have hdot : Stops e (oneOf ['.']) := hset (by decide)
  have hzero : Stops e (oneOf ['0']) := hset (by decide)
  have hlong : Stops e longMark := (hset (by decide)).maybe
  have hmark : Stops e (oneOf ['f', 'F', 'd', 'D']) := hset (by decide)
  have hdigits : Stops e (digits Char.isDigit) := hrun (by decide)
  have hhex : Stops e (digits isHexDigit) := hrun (by decide)
  have hplain : Stops e plainInteger := stops_plainInteger (hchar (by decide)) hbar
  have hstart : Stops e hexStart := hzero.bind (hset (by decide))
  have hexponent : ∀ {letters : List Char},
      (['\x7d', ';'].all fun c => !letters.contains c) → Stops e (exponent letters) :=
    fun h => (hset h).bind ((hset (by decide)).maybe.bind hdigits)
  have hexp : Stops e (maybe (exponent ['e', 'E'])) := (hexponent (by decide)).maybe
  have hpow : Stops e (maybe (exponent ['p', 'P'])) := (hexponent (by decide)).maybe
  simp only [numberForms, List.forall_mem_cons, List.not_mem_nil, false_implies, implies_true,
    and_true]
  exact ⟨hplain.bind hlong, (hstart.bind hhex).bind hlong,
    ((hzero.bind (hset (by decide)).maybe).bind (hrun (by decide))).bind hlong,
    ((hzero.bind (hset (by decide))).bind (hrun (by decide))).bind hlong,
    (((hdigits.bind hdot).bind hdigits.maybe).bind hexp).bind hmark.maybe,
    ((hdot.bind hdigits).bind hexp).bind hmark.maybe,
    (hplain.bind (hexponent (by decide))).bind hmark.maybe,
    (hplain.bind hexp).bind hmark,
    (((hstart.bind hhex).bind hdot.maybe).bind hpow).bind hmark.maybe,
    ((((hstart.bind hhex.maybe).bind hdot).bind hhex).bind hpow).bind hmark.maybe⟩

/-- Among rests with the same end, the same one is the shortest. -/
theorem foldl_shortest_append (back : List Char) (rests : List (List Char))
    (best : Option (List Char)) :
    (rests.map (· ++ back)).foldl (fun best r =>
      match best with
      | some b => if r.length < b.length then some r else some b
      | none => some r) (best.map (· ++ back)) =
      (rests.foldl (fun best r =>
        match best with
        | some b => if r.length < b.length then some r else some b
        | none => some r) best).map (· ++ back) := by
  induction rests generalizing best with
  | nil => rfl
  | cons r rests ih =>
    rw [List.map_cons, List.foldl_cons, List.foldl_cons, ← ih]
    congr 1
    cases best with
    | none => rfl
    | some b =>
      simp only [Option.map_some, List.length_append, Nat.add_lt_add_iff_right]
      split <;> rfl

theorem stops_number (he : e ∈ ['\x7d', ';']) : Stops e number := by
  intro s back
  have hforms : numberForms.filterMap (· (s ++ e :: back)) =
      (numberForms.filterMap (· s)).map (· ++ e :: back) := by
    rw [List.map_filterMap]
    exact List.filterMap_congr fun f hf => stops_numberForms he f hf s back
  rw [number, hforms]
  exact foldl_shortest_append (e :: back) _ none

/-! ## Words and marks -/

theorem dropStart?_append_stop {start : List Char} (h : e ∉ start) (s : List Char) :
    dropStart? start (s ++ e :: back) = (dropStart? start s).map (· ++ e :: back) := by
  induction start generalizing s with
  | nil => rfl
  | cons p start ih =>
    cases s with
    | nil => exact if_neg (List.ne_of_not_mem_cons h).symm
    | cons c s =>
      rw [List.cons_append, dropStart?, dropStart?, ih (List.not_mem_of_not_mem_cons h)]
      split <;> rfl

theorem mark_append_stop (he : e ∈ ['\x7d', ';']) {s : List Char} (hne : s ≠ []) :
    mark (s ++ e :: back) = (mark s).map (· ++ e :: back) := by
  obtain ⟨c, r, rfl⟩ := List.exists_cons_of_ne_nil hne
  have hmarks : ∀ m ∈ marks, m.toList ≠ [] ∧ e ∉ m.toList.tail := by
    simp only [List.mem_cons, List.not_mem_nil, or_false] at he
    rcases he with rfl | rfl <;> decide
  have hone : ∀ m ∈ marks, dropStart? m.toList (c :: r ++ e :: back) =
      (dropStart? m.toList (c :: r)).map (· ++ e :: back) := by
    intro m hm
    obtain ⟨hne, htail⟩ := hmarks m hm
    obtain ⟨p, start, hstart⟩ := List.exists_cons_of_ne_nil hne
    rw [hstart, List.tail_cons] at htail
    rw [hstart, List.cons_append, dropStart?, dropStart?, dropStart?_append_stop htail]
    split <;> rfl
  unfold mark
  generalize marks = ms at hone
  induction ms with
  | nil => rfl
  | cons m ms ih =>
    obtain ⟨hm, hms⟩ := List.forall_mem_cons.mp hone
    rw [List.findSome?_cons, List.findSome?_cons, hm, ih hms]
    cases dropStart? m.toList (c :: r) <;> rfl

/-- A lexeme without quotes ends in front of a brace or a semicolon. -/
theorem lexeme_append_stop (he : e ∈ ['\x7d', ';']) {c : Char} (hc : c ∉ ['"', '\''])
    (r : List Char) :
    lexeme (c :: r ++ e :: back) = (lexeme (c :: r)).map fun p => (p.1, p.2 ++ e :: back) := by
  have hquotes : c ≠ '"' ∧ c ≠ '\'' := by simpa using hc
  have hplain : ∀ r : List Char, lexeme (c :: r) =
      if isIdentifierStart c then some (.word, r.dropWhile isIdentifierPart)
      else ((number (c :: r)).map (LexemeKind.number, ·)).orElse fun _ =>
        (mark (c :: r)).map (LexemeKind.mark, ·) := by
    intro r
    rw [lexeme]
    · exact fun _ h => absurd h hquotes.1
    · exact fun h => absurd h hquotes.1
    · exact fun h => absurd h hquotes.2
  have hpart : isIdentifierPart e = false := by
    have hall : ['\x7d', ';'].all fun c => !isIdentifierPart c := by decide
    simpa using List.all_eq_true.mp hall e he
  rw [List.cons_append, hplain, hplain, ← List.cons_append, stops_number he (c :: r),
    mark_append_stop he (List.cons_ne_nil c r)]
  split
  · rw [dropWhile_append_stop hpart]
    rfl
  · cases number (c :: r) with
    | none => cases mark (c :: r) <;> rfl
    | some rest => rfl

end

/-! ## Strings, characters and comments -/

theorem closeComment_append_closing (s : List Char) :
    closeComment (s ++ closing) = (closeComment s).map fun p => (p.1, p.2 ++ closing) := by
  induction s using closeComment.induct with
  | case1 => rfl
  | case2 s => rfl
  | case3 c s hne ih =>
    have hne' : ∀ r, c = '*' → s ++ closing = '/' :: r → False := by
      intro r hc hs
      cases s with
      | nil => cases hs
      | cons d s =>
        cases hs
        exact hne s hc rfl
    rw [List.cons_append, closeComment, closeComment, ih, Option.map_map, Option.map_map]
    · rfl
    · exact hne
    · exact hne'

theorem exists_of_endsLine {s : List Char} (hs : EndsLine s) (hne : s ≠ []) :
    ∃ front, s = front ++ ['\n'] := by
  obtain ⟨front, last, rfl⟩ := (List.eq_nil_or_concat s).resolve_left hne
  rw [List.concat_eq_append] at hs ⊢
  rw [hs last (by simp)]
  exact ⟨front, rfl⟩

/-- Hexadecimal digits do not reach into the next line. -/
theorem hexDigits_append_closing {s : List Char} (hs : EndsLine s) (hne : s ≠ []) (k : Nat) :
    (if ((s ++ closing).take k).length = k && ((s ++ closing).take k).all isHexDigit then
        some ((s ++ closing).drop k) else none) =
      (if (s.take k).length = k && (s.take k).all isHexDigit then some (s.drop k)
        else none : Option (List Char)).map (· ++ closing) := by
  by_cases hk : k ≤ s.length
  · rw [List.take_append_of_le_length hk, List.drop_append_of_le_length hk]
    split <;> rfl
  · have hfew : ¬ ((s.take k).length = k && (s.take k).all isHexDigit) := by
      rw [List.take_of_length_le (by omega), Bool.and_eq_true, decide_eq_true_eq]
      omega
    have hfeed : ¬ (((s ++ closing).take k).length = k && ((s ++ closing).take k).all isHexDigit) := by
      obtain ⟨front, rfl⟩ := exists_of_endsLine hs hne
      rw [List.take_append, List.take_of_length_le (by omega)]
      simp [show isHexDigit '\n' = false by decide]
    rw [if_neg hfew, if_neg hfeed]
    rfl

/-- A code point in braces has at least one digit. -/
theorem escaped_point (r : List Char) : escaped ('u' :: '\x7b' :: r) =
    if r.takeWhile isHexDigit ≠ [] ∧ (r.dropWhile isHexDigit).head? = some '\x7d' then
      some (r.dropWhile isHexDigit).tail
    else none := by
  rw [escaped, List.span_eq_takeWhile_dropWhile]
  generalize r.takeWhile isHexDigit = digits
  generalize r.dropWhile isHexDigit = rest
  split
  · next heq =>
    cases heq
    rw [if_pos ⟨List.cons_ne_nil _ _, rfl⟩]
    rfl
  · next hne =>
    rw [if_neg]
    rintro ⟨hdigits, hhead⟩
    obtain ⟨d, ds, rfl⟩ := List.exists_cons_of_ne_nil hdigits
    obtain ⟨t, rfl⟩ := List.head?_eq_some_iff.mp hhead
    exact hne d ds t rfl

/-- A backslash takes nothing of the next line but the end of its own. -/
theorem escaped_append_closing {s : List Char} (hs : EndsLine s) (hne : s ≠ []) :
    escaped (s ++ closing) = (escaped s).map (· ++ closing) := by
  cases s with
  | nil => exact absurd rfl hne
  | cons c r =>
    by_cases hx : c = 'x'
    · subst hx
      exact hexDigits_append_closing hs.tail (hs.ne_nil (by decide)) 2
    · by_cases hu : c = 'u'
      · subst hu
        obtain ⟨d, t, rfl⟩ := List.exists_cons_of_ne_nil (hs.ne_nil (by decide))
        by_cases hd : d = '\x7b'
        · subst hd
          obtain ⟨front, hfront⟩ := exists_of_endsLine hs.tail.tail (hs.tail.ne_nil (by decide))
          have hmore : t.dropWhile isHexDigit ≠ [] := by
            rw [hfront, ne_eq, List.dropWhile_eq_nil_iff]
            intro hall
            exact absurd (hall '\n' (by simp)) (by decide)
          obtain ⟨e, rest, hrest⟩ := List.exists_cons_of_ne_nil hmore
          rw [List.cons_append, List.cons_append, escaped_point, escaped_point, closing,
            takeWhile_append_stop (by decide), dropWhile_append_stop (by decide), hrest,
            List.cons_append, List.head?_cons, List.head?_cons]
          split <;> rfl
        · have hplain : ∀ r : List Char, escaped ('u' :: d :: r) =
              if ((d :: r).take 4).length = 4 && ((d :: r).take 4).all isHexDigit then
                some ((d :: r).drop 4) else none := by
            intro r
            unfold escaped
            split
            · next heq => cases heq
            · next heq => cases heq
            · next heq =>
              cases heq
              exact absurd rfl hd
            · next heq => cases heq; rfl
            · next hne heq =>
              cases heq
              exact absurd rfl hne
          rw [List.cons_append, List.cons_append, hplain, hplain]
          exact hexDigits_append_closing hs.tail (List.cons_ne_nil _ _) 4
      · have hplain : ∀ r : List Char, escaped (c :: r) = some r := by
          intro r
          unfold escaped
          split <;> simp_all
        rw [List.cons_append, hplain, hplain]
        rfl

theorem closeString_closing (n : Nat) : closeString n closing = none := by
  cases h : closeString n closing with
  | none => rfl
  | some r => exact absurd ((closeString_suffix h).subset List.mem_cons_self) (by decide)

theorem closeTextBlock_closing (n : Nat) : closeTextBlock n closing = none := by
  cases h : closeTextBlock n closing with
  | none => rfl
  | some r => exact absurd ((closeTextBlock_suffix h).subset List.mem_cons_self) (by decide)

theorem closeString_append_closing {m n : Nat} {s : List Char} (hs : EndsLine s)
    (hm : s.length < m) (hn : s.length + 2 < n) :
    closeString n (s ++ closing) = (closeString m s).map (· ++ closing) := by
  induction m generalizing n s with
  | zero => omega
  | succ m ih =>
    obtain ⟨n, rfl⟩ := Nat.exists_eq_add_of_lt hn
    cases s with
    | nil => exact closeString_closing _
    | cons c r =>
      rw [List.cons_append, closeString, closeString]
      rw [List.length_cons] at hm
      split
      · rfl
      · split
        · next hslash =>
          have hne : r ≠ [] := hs.ne_nil (by rw [hslash]; decide)
          rw [escaped_append_closing hs.tail hne]
          cases ht : escaped r with
          | none => rfl
          | some t =>
            have hsuffix := escaped_suffix ht
            have hlength := hsuffix.length_le
            exact ih (hs.tail.of_suffix hsuffix) (by omega) (by simp only [List.length_cons]; omega)
        · exact ih hs.tail (by omega) (by simp only [List.length_cons]; omega)

/-- Three quotes close a text block; anything else is taken, a backslash with what it escapes. -/
theorem closeTextBlock_cons {c : Char} {r : List Char} (h : ¬ (c = '"' ∧ ['"', '"'] <+: r)) (n : Nat) :
    closeTextBlock (n + 1) (c :: r) =
      if c = '\\' then escaped r >>= closeTextBlock n else closeTextBlock n r := by
  rw [closeTextBlock]
  rintro t rfl rfl
  exact h ⟨rfl, List.prefix_append _ _⟩

theorem closeTextBlock_append_closing {m n : Nat} {s : List Char} (hs : EndsLine s)
    (hm : s.length < m) (hn : s.length + 2 < n) :
    closeTextBlock n (s ++ closing) = (closeTextBlock m s).map (· ++ closing) := by
  induction m generalizing n s with
  | zero => omega
  | succ m ih =>
    obtain ⟨n, rfl⟩ := Nat.exists_eq_add_of_lt hn
    cases s with
    | nil => exact closeTextBlock_closing _
    | cons c r =>
      rw [List.length_cons] at hm
      by_cases hquotes : c = '"' ∧ ['"', '"'] <+: r
      · obtain ⟨rfl, t, rfl⟩ := hquotes
        rfl
      · have hquotes' : ¬ (c = '"' ∧ ['"', '"'] <+: r ++ closing) := by
          rintro ⟨rfl, t, ht⟩
          have hne := hs.ne_nil (by decide)
          match r, hne with
          | [d], _ => cases ht
          | d :: e :: r, _ =>
            cases ht
            exact hquotes ⟨rfl, List.prefix_append _ _⟩
        rw [List.cons_append, closeTextBlock_cons hquotes', closeTextBlock_cons hquotes]
        split
        · next hslash =>
          have hne : r ≠ [] := hs.ne_nil (by rw [hslash]; decide)
          rw [escaped_append_closing hs.tail hne]
          cases ht : escaped r with
          | none => rfl
          | some t =>
            have hsuffix := escaped_suffix ht
            have hlength := hsuffix.length_le
            exact ih (hs.tail.of_suffix hsuffix) (by omega) (by simp only [List.length_cons]; omega)
        · exact ih hs.tail (by omega) (by simp only [List.length_cons]; omega)

theorem closeCharacterTail_append_closing {s : List Char} (hs : EndsLine s) :
    closeCharacter.closeCharacterTail (s ++ closing) =
      (closeCharacter.closeCharacterTail s).map (· ++ closing) := by
  have hplain : ∀ {c : Char} {s : List Char}, EndsLine (c :: s) →
      (∀ d r, c = '\\' → s = d :: r → False) → ∀ d r, c = '\\' → s ++ closing = d :: r → False := by
    rintro c s hs hne d r rfl -
    obtain ⟨e, t, ht⟩ := List.exists_cons_of_ne_nil (hs.ne_nil (by decide))
    exact hne e t rfl ht
  induction s using closeCharacter.closeCharacterTail.induct with
  | case1 => rfl
  | case2 c s ih => exact ih hs.tail.tail
  | case3 s _ => rfl
  | case4 c s hne hquote hstop =>
    rw [List.cons_append, closeCharacter.closeCharacterTail, closeCharacter.closeCharacterTail,
      if_neg hquote, if_neg hquote, if_pos hstop, if_pos hstop]
    · rfl
    · exact hne
    · exact hplain hs hne
  | case5 c s hne hquote hstop ih =>
    rw [List.cons_append, closeCharacter.closeCharacterTail, closeCharacter.closeCharacterTail,
      if_neg hquote, if_neg hquote, if_neg hstop, if_neg hstop]
    · exact ih hs.tail
    · exact hne
    · exact hplain hs hne

theorem closeCharacter_append_closing {s : List Char} (hs : EndsLine s) :
    closeCharacter (s ++ closing) = (closeCharacter s).map (· ++ closing) := by
  cases s with
  | nil => rfl
  | cons c r =>
    by_cases hslash : c = '\\'
    · obtain ⟨d, t, rfl⟩ := List.exists_cons_of_ne_nil (hs.ne_nil (by rw [hslash]; decide))
      subst hslash
      exact closeCharacterTail_append_closing hs.tail.tail
    · have hplain : ∀ r : List Char, closeCharacter (c :: r) =
          if c = '\'' || c = '\\' || c = '\n' then none
          else closeCharacter.closeCharacterTail r := by
        intro r
        rw [closeCharacter]
        exact fun _ _ h => absurd h hslash
      rw [List.cons_append, hplain, hplain]
      split
      · rfl
      · exact closeCharacterTail_append_closing hs.tail

/-! ## Lexemes -/

/-- A lexeme that goes on in the next line closes behind it. -/
theorem lexeme_append_closing {s : List Char} (hs : EndsLine s) (hne : s ≠ []) :
    lexeme (s ++ closing) = (lexeme s).map fun p => (p.1, p.2 ++ closing) := by
  obtain ⟨c, r, rfl⟩ := List.exists_cons_of_ne_nil hne
  have hr := hs.tail
  have hmap : ∀ {kind : LexemeKind} {x y : Option (List Char)}, x = y.map (· ++ closing) →
      x.map (kind, ·) = (y.map (kind, ·)).map fun p => (p.1, p.2 ++ closing) := by
    rintro kind x y rfl
    cases y <;> rfl
  by_cases hquote : c = '"'
  · subst hquote
    by_cases hblock : ∃ t, r = '"' :: '"' :: t
    · obtain ⟨t, rfl⟩ := hblock
      exact hmap (closeTextBlock_append_closing hr.tail.tail (by omega) (by simp [closing]))
    · have hstring : ∀ r : List Char, (¬ ∃ t, r = '"' :: '"' :: t) →
          lexeme ('"' :: r) = (closeString (r.length + 1) r).map (.string, ·) := by
        intro r hr
        rw [lexeme]
        rintro t rfl
        exact hr ⟨t, rfl⟩
      have hblock' : ¬ ∃ t, r ++ closing = '"' :: '"' :: t := by
        rintro ⟨t, ht⟩
        match r, hs.ne_nil (by decide) with
        | [d], _ => cases ht
        | d :: e :: r, _ =>
          cases ht
          exact hblock ⟨r, rfl⟩
      rw [List.cons_append, hstring r hblock, hstring _ hblock']
      exact hmap (closeString_append_closing hr (by omega) (by simp [closing]))
  · by_cases happostrophe : c = '\''
    · subst happostrophe
      exact hmap (closeCharacter_append_closing hr)
    · exact lexeme_append_stop (by decide) (by simp [hquote, happostrophe]) r

/-! ## Spaces -/

theorem takeSpace_lineComment (b : Char) (bound r : List Char) :
    takeSpace (b :: bound) ('/' :: '/' :: r) =
      ('/' :: '/' :: r.takeWhile (· != '\n') ++ (takeSpace bound (r.dropWhile (· != '\n'))).1,
        (takeSpace bound (r.dropWhile (· != '\n'))).2) := by
  rw [takeSpace, List.span_eq_takeWhile_dropWhile]

theorem takeSpace_comment (b : Char) (bound r : List Char) :
    takeSpace (b :: bound) ('/' :: '*' :: r) =
      match closeComment r with
      | some p => ('/' :: '*' :: p.1 ++ (takeSpace bound p.2).1, (takeSpace bound p.2).2)
      | none => ([], '/' :: '*' :: r) := by
  rw [takeSpace]
  cases closeComment r <;> rfl

theorem takeSpace_cons {c : Char} {r : List Char} (hline : ∀ t, c = '/' → r ≠ '/' :: t)
    (hblock : ∀ t, c = '/' → r ≠ '*' :: t) (b : Char) (bound : List Char) :
    takeSpace (b :: bound) (c :: r) =
      if isJavaBlank c then (c :: (takeSpace bound r).1, (takeSpace bound r).2)
      else ([], c :: r) := by
  rw [takeSpace]
  · exact hline
  · exact hblock

/-- The rest of a line does not depend on the lines behind it. -/
theorem restOfLine_append {s : List Char} (h : '\n' ∈ s) (back : List Char) :
    (s ++ back).takeWhile (· != '\n') = s.takeWhile (· != '\n') ∧
      (s ++ back).dropWhile (· != '\n') = s.dropWhile (· != '\n') ++ back := by
  induction s with
  | nil => cases h
  | cons c s ih =>
    rw [List.cons_append, List.takeWhile_cons, List.takeWhile_cons, List.dropWhile_cons,
      List.dropWhile_cons]
    split
    · next hc =>
      have hmem : '\n' ∈ s := (List.mem_cons.mp h).resolve_left (by rintro rfl; cases hc)
      obtain ⟨htake, hdrop⟩ := ih hmem
      exact ⟨congrArg (c :: ·) htake, hdrop⟩
    · exact ⟨rfl, rfl⟩

/-- In front of the closing brace, space ends with its line at the latest. -/
theorem takeSpace_append_closing {bound bound' s : List Char} (hs : EndsLine s)
    (hbound : s.length ≤ bound.length) (hbound' : s.length < bound'.length) :
    takeSpace bound' (s ++ closing) = ((takeSpace bound s).1, (takeSpace bound s).2 ++ closing) := by
  have hnil : ∀ {bound bound' : List Char}, bound' ≠ [] →
      takeSpace bound' ([] ++ closing) = ((takeSpace bound []).1, (takeSpace bound []).2 ++ closing) := by
    intro bound bound' hne
    obtain ⟨b, bound', rfl⟩ := List.exists_cons_of_ne_nil hne
    cases bound <;> rfl
  induction bound generalizing s bound' with
  | nil =>
    obtain rfl := List.length_eq_zero_iff.mp (Nat.le_zero.mp hbound)
    exact hnil (List.length_pos_iff.mp hbound')
  | cons b bound ih =>
    obtain ⟨b', bound', rfl⟩ := List.exists_cons_of_length_pos (Nat.zero_lt_of_lt hbound')
    rw [List.length_cons] at hbound hbound'
    cases s with
    | nil => exact hnil (List.cons_ne_nil _ _)
    | cons c r =>
      rw [List.length_cons] at hbound hbound'
      by_cases hline : ∃ t, c = '/' ∧ r = '/' :: t
      · obtain ⟨t, rfl, rfl⟩ := hline
        rw [List.length_cons] at hbound hbound'
        have ht := hs.tail.tail
        obtain ⟨front, hfront⟩ := exists_of_endsLine ht (hs.tail.ne_nil (by decide))
        obtain ⟨htake, hdrop⟩ := restOfLine_append (s := t) (by simp [hfront]) closing
        have hsuffix := List.dropWhile_suffix (l := t) (· != '\n')
        have hlength := hsuffix.length_le
        rw [List.cons_append, List.cons_append, takeSpace_lineComment, takeSpace_lineComment, hdrop,
          htake, ih (ht.of_suffix hsuffix) (by omega) (by omega)]
      · by_cases hblock : ∃ t, c = '/' ∧ r = '*' :: t
        · obtain ⟨t, rfl, rfl⟩ := hblock
          rw [List.length_cons] at hbound hbound'
          rw [List.cons_append, List.cons_append, takeSpace_comment, takeSpace_comment,
            closeComment_append_closing]
          cases hclose : closeComment t with
          | none => rfl
          | some p =>
            have happend := closeComment_append hclose
            have hlength := congrArg List.length happend
            rw [List.length_append] at hlength
            dsimp only [Option.map_some]
            rw [ih (hs.tail.tail.of_suffix ⟨p.1, happend⟩) (by omega) (by omega)]
        · have hstop : ∀ d : Char, (¬ ∃ t, c = '/' ∧ r = d :: t) →
              (∀ t, c = '/' → r ≠ d :: t) ∧ ∀ t, c = '/' → r ++ closing ≠ d :: t := by
            intro d hnone
            refine ⟨fun t hc ht => hnone ⟨t, hc, ht⟩, fun t hc ht => ?_⟩
            obtain ⟨e, u, rfl⟩ := List.exists_cons_of_ne_nil (hs.ne_nil (by rw [hc]; decide))
            cases ht
            exact hnone ⟨u, hc, rfl⟩
          rw [List.cons_append, takeSpace_cons (hstop _ hline).1 (hstop _ hblock).1,
            takeSpace_cons (hstop _ hline).2 (hstop _ hblock).2]
          split
          · rw [ih hs.tail (by omega) (by omega)]
          · rfl

/-! ## Sources -/

/-- In front of a closing brace that begins the last line, a source is lexed as without that line. -/
theorem lexFrom_append_closing {n : Nat} {before s : List Char} {ls : List Lexeme} {close : Space}
    (hs : EndsLine s) (h : lexFrom n before (s ++ closing) = some (ls, close)) :
    ∃ inner space, lexFrom (s.length + 1) before s = some (inner, space) ∧
      ls = inner ++ [⟨space, .mark, "\x7d"⟩] ∧ close = ⟨"\n"⟩ := by
  induction ls generalizing n before s with
  | nil =>
    obtain ⟨space, hspace, -⟩ := exists_of_lexFrom_nil h
    rw [takeSpace_append_closing hs (Nat.le_refl s.length) (by simp [closing])] at hspace
    exact absurd (List.append_eq_nil_iff.mp (Prod.mk.inj hspace).2).2 (List.cons_ne_nil _ _)
  | cons l ls ih =>
    obtain ⟨n, kind, space, taken, rest, hspace, hne, hlexeme, rfl, hmore⟩ :=
      exists_of_lexFrom_cons h
    have happend := takeSpace_append s s
    rw [takeSpace_append_closing hs (Nat.le_refl s.length) (by simp [closing])] at hspace
    obtain ⟨hfront, hback⟩ := Prod.mk.inj hspace
    generalize hsplit : takeSpace s s = split at hfront hback happend
    obtain ⟨space', t⟩ := split
    dsimp only at hfront hback happend
    subst hfront
    rw [← hback] at hlexeme
    by_cases ht : t = []
    · subst ht
      have hbrace : lexeme closing = some (.mark, ['\n']) := by decide +kernel
      have hfeed : lexFrom 2 [] ['\n'] = some ([], ⟨"\n"⟩) := by decide +kernel
      rw [List.nil_append, hbrace] at hlexeme
      cases hlexeme
      have hend := lexFrom_of_length_lt hmore (show ['\n'].length < 2 by decide)
      rw [hfeed] at hend
      cases hend
      have htaken : taken = ['\x7d'] := List.append_cancel_right hback.symm
      refine ⟨[], ⟨String.ofList (before ++ space')⟩, ?_, ?_, rfl⟩
      · rw [lexFrom, hsplit]
      · rw [htaken]
        rfl
    · rw [lexeme_append_closing (hs.of_suffix ⟨_, happend⟩) ht] at hlexeme
      obtain ⟨⟨kind', rest'⟩, hfirst, hpair⟩ := Option.map_eq_some_iff.mp hlexeme
      cases hpair
      rw [← List.append_assoc] at hback
      obtain rfl := List.append_cancel_right hback
      have hrest : rest' <:+ s := ⟨space' ++ taken, by rw [List.append_assoc, happend]⟩
      obtain ⟨inner, last, hinner, rfl, rfl⟩ := ih (hs.of_suffix hrest) hmore
      refine ⟨⟨⟨String.ofList (before ++ space')⟩, kind', String.ofList taken⟩ :: inner, last, ?_,
        rfl, rfl⟩
      exact lexFrom_of_length_lt (lexFrom_of_first hsplit hne hfirst hinner) (Nat.lt_succ_self _)

end JavaMigration.Java
