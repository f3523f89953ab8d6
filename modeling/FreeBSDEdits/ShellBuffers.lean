import FreeBSDEdits.ShellLexer
import Mathlib.Data.List.TakeWhile
import Mathlib.Algebra.GroupWithZero.Nat

namespace FreeBSDEdits

/-- The C string at an index of the line buffer. -/
structure StringAt (linebuf : Nat → UInt8) (p : Nat) (t : Bytes) : Prop where
  text : ∀ i b, t[i]? = some b → linebuf (p + i) = b
  nul : linebuf (p + t.length) = 0
  noNul : 0 ∉ t

/-- `_args` holds these strings, none over another one, and NULL. -/
def Lexer.ArgsHold (st : Lexer) (toks : List Bytes) : Prop :=
  ∃ p : Nat → Nat,
    (∀ k t, toks[k]? = some t → st.args k = some (p k) ∧ StringAt st.linebuf (p k) t) ∧
    st.args toks.length = none ∧
    ∀ j k t u, toks[j]? = some t → toks[k]? = some u → j ≠ k →
      p j + t.length < p k ∨ p k + u.length < p j

/-- The WORD, SPECIAL and QUOTE tokens up to the newline. -/
def tokensOf (input : List UInt8) : List Bytes :=
  ((shellRules.scan input.length input).1.filter (fun t => t.1 = .token)).map Prod.snd

/-- The newline is reached before the input ends. -/
def hasNewline (input : List UInt8) : Bool := (shellRules.scan input.length input).2

/-- What execvp would see of a text. -/
def beforeNul (t : List UInt8) : Bytes := t.takeWhile (· ≠ 0)

/-- No store leaves the buffers, and at the newline `_args` holds the tokens, up to 255 of them. -/
def LexerKeeps (st : Lexer) (input : List UInt8) : Prop :=
  ∃ r, st.yylex input = some r ∧
    (hasNewline input = true → r.1.ArgsHold ((tokensOf input).take (argsSize - 1)))

/-- The bytes that are stored for some tokens. -/
def image (toks : List Bytes) : List UInt8 := toks.flatMap fun t => beforeNul t ++ [0]

theorem image_append (toks toks' : List Bytes) :
    image (toks ++ toks') = image toks ++ image toks' := List.flatMap_append

theorem image_cons (t : Bytes) (toks : List Bytes) :
    image (t :: toks) = beforeNul t ++ 0 :: image toks := by
  rw [image, List.flatMap_cons, List.append_assoc]
  rfl

theorem beforeNul_self {t : Bytes} (hnul : 0 ∉ t) : beforeNul t = t := by
  refine List.takeWhile_eq_self_iff.mpr (fun b hb => ?_)
  have hb0 : b ≠ 0 := fun he => hnul (he ▸ hb)
  simpa using hb0

theorem image_length (toks : List Bytes) :
    (image toks).length = (toks.map fun t => (beforeNul t).length + 1).sum := by
  rw [image, List.length_flatMap]
  congr 1
  exact List.map_congr_left (fun t _ => by rw [List.length_append, List.length_singleton])

namespace Lexer

variable {st st' : Lexer} {img : List UInt8}

/-- The line buffer holds these bytes. -/
structure Filled (st : Lexer) (img : List UInt8) : Prop where
  pos : st.bufpos = img.length
  byte : ∀ i b, img[i]? = some b → st.linebuf i = b

theorem Filled.storeByte (h : st.Filled img) {b : UInt8} (hs : st.storeByte b = some st') :
    st'.Filled (img ++ [b]) ∧ st'.args = st.args ∧ st'.argcount = st.argcount := by
  unfold Lexer.storeByte at hs
  split at hs
  next hlt =>
    cases hs
    refine ⟨⟨?_, fun i x hx => ?_⟩, rfl, rfl⟩
    · rw [List.length_append, ← h.pos]
      rfl
    · change Function.update st.linebuf st.bufpos b i = x
      rw [List.getElem?_append] at hx
      split at hx
      next hi =>
        rw [Function.update_of_ne (by rw [h.pos]; omega)]
        exact h.byte i x hx
      next hi =>
        obtain ⟨hlast, hx⟩ := List.getElem?_eq_some_iff.mp hx
        rw [List.length_singleton] at hlast
        have he : i = st.bufpos := by rw [h.pos]; omega
        subst he
        rw [Function.update_self, ← hx]
        simp
  next => cases hs

theorem Filled.storeByte_fits (h : st.Filled img) (b : UInt8) (hfit : img.length < linebufSize) :
    ∃ st', st.storeByte b = some st' := by
  rw [← h.pos] at hfit
  exact ⟨_, if_pos hfit⟩

theorem Filled.storeByte_none (h : st.Filled img) (b : UInt8) (hfull : linebufSize ≤ img.length) :
    st.storeByte b = none := by
  rw [← h.pos] at hfull
  exact if_neg (Nat.not_lt.mpr hfull)

/-- The loop over yytext and the store behind it. -/
theorem copyText_eq (t : List UInt8) (st : Lexer) : (copyText t st).bind (·.storeByte 0) =
    (beforeNul t ++ [0]).foldlM Lexer.storeByte st := by
  induction t generalizing st with
  | nil => exact (bind_pure (st.storeByte 0)).symm
  | cons b t ih =>
    unfold beforeNul
    by_cases hb : b = 0
    · rw [copyText, if_pos hb, List.takeWhile_cons_of_neg (by simpa using hb)]
      exact (bind_pure (st.storeByte 0)).symm
    · rw [copyText, if_neg hb, List.takeWhile_cons_of_pos (by simpa using hb), Option.bind_assoc,
        List.cons_append, List.foldlM_cons]
      exact congrArg ((st.storeByte b).bind ·) (funext ih)

theorem Filled.store_fits (h : st.Filled img) {bytes : List UInt8}
    (hfit : img.length + bytes.length ≤ linebufSize) :
    ∃ st', bytes.foldlM Lexer.storeByte st = some st' ∧ st'.Filled (img ++ bytes) ∧
      st'.args = st.args ∧ st'.argcount = st.argcount := by
  induction bytes generalizing st img with
  | nil => exact ⟨st, rfl, by rwa [List.append_nil], rfl, rfl⟩
  | cons b bytes ih =>
    rw [List.length_cons] at hfit
    obtain ⟨st₁, hs⟩ := h.storeByte_fits b (by omega)
    obtain ⟨hf, ha, hc⟩ := h.storeByte hs
    have hfit₁ : (img ++ [b]).length + bytes.length ≤ linebufSize := by
      rw [List.length_append, List.length_singleton]
      omega
    obtain ⟨st', hs', hf', ha', hc'⟩ := ih hf hfit₁
    refine ⟨st', ?_, ?_, ha'.trans ha, hc'.trans hc⟩
    · rw [List.foldlM_cons, hs]
      exact hs'
    · rwa [List.append_assoc] at hf'

theorem Filled.store_none (h : st.Filled img) {bytes : List UInt8}
    (hin : img.length ≤ linebufSize) (hfull : linebufSize < img.length + bytes.length) :
    bytes.foldlM Lexer.storeByte st = none := by
  induction bytes generalizing st img with
  | nil =>
    rw [List.length_nil] at hfull
    omega
  | cons b bytes ih =>
    rw [List.length_cons] at hfull
    rw [List.foldlM_cons]
    by_cases hlt : img.length < linebufSize
    · obtain ⟨st₁, hs⟩ := h.storeByte_fits b hlt
      obtain ⟨hf, -, -⟩ := h.storeByte hs
      rw [hs]
      refine ih hf ?_ ?_
      · rw [List.length_append, List.length_singleton]
        omega
      · rw [List.length_append, List.length_singleton]
        omega
    · rw [h.storeByte_none b (by omega)]
      rfl

/-- The buffers when some tokens have been stored. -/
structure Stored (st : Lexer) (toks : List Bytes) : Prop where
  filled : st.Filled (image toks)
  count : st.argcount = toks.length
  pointer : ∀ k < toks.length, st.args k = some (image (toks.take k)).length
  null : st.args toks.length = none

variable {toks : List Bytes}

theorem reset_stored (st : Lexer) : ∃ st', st.reset = some st' ∧ st'.Stored [] := by
  refine ⟨{ st with argcount := 0, bufpos := 0, args := Function.update st.args 0 none }, ?_,
    ⟨rfl, fun i b hb => ?_⟩, rfl, fun k hk => absurd hk (Nat.not_lt_zero k), ?_⟩
  · unfold reset storeArg
    exact if_pos (by decide)
  · cases hb
  · change Function.update st.args 0 none 0 = none
    exact Function.update_self _ _ _

/-- Both stores into `_args` stay inside. -/
theorem addArg_eq (hroom : st.argcount < argsSize - 1) (t : List UInt8) : st.addArg t =
    (beforeNul t ++ [0]).foldlM Lexer.storeByte { st with
      args := Function.update (Function.update st.args st.argcount (some st.bufpos))
        (st.argcount + 1) none
      argcount := st.argcount + 1 } := by
  have hfirst : st.argcount < argsSize := by omega
  have hsecond : st.argcount + 1 < argsSize := by omega
  unfold addArg storeArg
  rw [if_pos hroom, if_pos hfirst]
  simp only [Option.bind_eq_bind, Option.bind_some, if_pos hsecond]
  exact copyText_eq t _

/-- The pointers when one more is stored. -/
theorem Stored.pointers (h : st.Stored toks) (t : Bytes) :
    (∀ k < (toks ++ [t]).length,
      Function.update (Function.update st.args st.argcount (some st.bufpos)) (st.argcount + 1)
        none k = some (image ((toks ++ [t]).take k)).length) ∧
    Function.update (Function.update st.args st.argcount (some st.bufpos)) (st.argcount + 1) none
      (toks ++ [t]).length = none := by
  have hlen : (toks ++ [t]).length = toks.length + 1 := by
    rw [List.length_append, List.length_singleton]
  rw [h.count, hlen]
  refine ⟨fun k hk => ?_, Function.update_self _ _ _⟩
  rw [Function.update_of_ne (Nat.ne_of_lt hk)]
  by_cases he : k = toks.length
  · subst he
    rw [Function.update_self, List.take_left, h.filled.pos]
  · have hk' : k < toks.length := by omega
    rw [Function.update_of_ne he, List.take_append_of_le_length (Nat.le_of_lt hk')]
    exact h.pointer k hk'

theorem image_concat_length (toks : List Bytes) (t : Bytes) :
    (image (toks ++ [t])).length = (image toks).length + ((beforeNul t).length + 1) := by
  rw [image_append, List.length_append]
  simp [image]

/-- A token is stored if it fits into the line buffer. -/
theorem Stored.addArg_fits (h : st.Stored toks) (hroom : toks.length < argsSize - 1) {t : Bytes}
    (hfit : (image (toks ++ [t])).length ≤ linebufSize) :
    ∃ st', st.addArg t = some st' ∧ st'.Stored (toks ++ [t]) := by
  rw [image_concat_length] at hfit
  rw [addArg_eq (by rw [h.count]; exact hroom)]
  generalize hst₁ : ({ st with
    args := Function.update (Function.update st.args st.argcount (some st.bufpos))
      (st.argcount + 1) none
    argcount := st.argcount + 1 } : Lexer) = st₁
  have hfilled : st₁.Filled (image toks) := by
    rw [← hst₁]
    exact ⟨h.filled.pos, h.filled.byte⟩
  have hbytes : (image toks).length + (beforeNul t ++ [0]).length ≤ linebufSize := by
    simpa using hfit
  obtain ⟨st', hs, hf, ha, hc⟩ := hfilled.store_fits hbytes
  obtain ⟨hp, hn⟩ := h.pointers t
  have himage : image (toks ++ [t]) = image toks ++ (beforeNul t ++ [0]) := by
    rw [image_append]
    simp [image]
  refine ⟨st', hs, ?_, ?_, ?_, ?_⟩
  · rwa [himage]
  · rw [hc, ← hst₁, List.length_append, List.length_singleton, ← h.count]
  · intro k hk
    rw [ha, ← hst₁]
    exact hp k hk
  · rw [ha, ← hst₁]
    exact hn

theorem Stored.addArg_none (h : st.Stored toks) (hroom : toks.length < argsSize - 1) {t : Bytes}
    (hin : (image toks).length ≤ linebufSize)
    (hfull : linebufSize < (image (toks ++ [t])).length) : st.addArg t = none := by
  rw [image_concat_length] at hfull
  rw [addArg_eq (by rw [h.count]; exact hroom)]
  have hfilled : Filled { st with
      args := Function.update (Function.update st.args st.argcount (some st.bufpos))
        (st.argcount + 1) none
      argcount := st.argcount + 1 } (image toks) := ⟨h.filled.pos, h.filled.byte⟩
  exact hfilled.store_none hin (by simpa using hfull)

/-- The tokens from the 256th on are dropped. -/
theorem Stored.addArg_full (h : st.Stored toks) (hfull : toks.length = argsSize - 1)
    (t : Bytes) : st.addArg t = some st := by
  unfold addArg
  rw [if_neg]
  rw [h.count, hfull]
  exact Nat.lt_irrefl _

theorem image_length_le {toks toks' : List Bytes} (h : toks <+: toks') :
    (image toks).length ≤ (image toks').length := by
  obtain ⟨rest, rfl⟩ := h
  rw [image_append, List.length_append]
  exact Nat.le_add_right _ _

theorem take_append_full {pre : List Bytes} (hfull : pre.length = argsSize - 1)
    (toks : List Bytes) : (pre ++ toks).take (argsSize - 1) = pre := by
  rw [← hfull]
  exact List.take_left

/-- The first 255 tokens are stored if they fit, and else a store leaves the line buffer. -/
theorem Stored.addArgs {pre : List Bytes} (h : st.Stored pre) (hpre : pre.length ≤ argsSize - 1)
    (hin : (image pre).length ≤ linebufSize) (toks : List Bytes) :
    ((image ((pre ++ toks).take (argsSize - 1))).length ≤ linebufSize →
      ∃ st', toks.foldlM addArg st = some st' ∧ st'.Stored ((pre ++ toks).take (argsSize - 1))) ∧
    (linebufSize < (image ((pre ++ toks).take (argsSize - 1))).length →
      toks.foldlM addArg st = none) := by
  induction toks generalizing st pre with
  | nil =>
    rw [List.append_nil, List.take_of_length_le hpre]
    exact ⟨fun _ => ⟨st, rfl, h⟩, fun hfull => absurd hfull (Nat.not_lt.mpr hin)⟩
  | cons t toks ih =>
    rw [List.foldlM_cons]
    by_cases hfull : pre.length = argsSize - 1
    · rw [take_append_full hfull, h.addArg_full hfull]
      have hrest := ih h hpre hin
      rw [take_append_full hfull] at hrest
      exact hrest
    · have hroom : pre.length < argsSize - 1 := by omega
      have hlen : (pre ++ [t]).length ≤ argsSize - 1 := by
        rw [List.length_append, List.length_singleton]
        omega
      have happ : pre ++ t :: toks = (pre ++ [t]) ++ toks := by
        rw [List.append_assoc]
        rfl
      by_cases hfit : (image (pre ++ [t])).length ≤ linebufSize
      · obtain ⟨st₁, hs, h₁⟩ := h.addArg_fits hroom hfit
        rw [hs, happ]
        exact ih h₁ hlen hfit
      · have hprefix : pre ++ [t] <+: (pre ++ t :: toks).take (argsSize - 1) := by
          rw [happ]
          exact List.prefix_take_iff.mpr ⟨List.prefix_append _ _, hlen⟩
        have hle := image_length_le hprefix
        refine ⟨fun hall => absurd (Nat.le_trans hle hall) hfit, fun _ => ?_⟩
        rw [h.addArg_none hroom hin (Nat.lt_of_not_le hfit)]
        rfl

theorem act_tokens (l : List (LexRule × List UInt8)) (st : Lexer) :
    l.foldlM (fun st t => act t.1 t.2 st) st =
      ((l.filter (fun t => t.1 = .token)).map Prod.snd).foldlM addArg st := by
  induction l generalizing st with
  | nil => rfl
  | cons t l ih =>
    obtain ⟨r, text⟩ := t
    rw [List.foldlM_cons]
    cases r with
    | token =>
      rw [List.filter_cons_of_pos (by rfl), List.map_cons, List.foldlM_cons]
      exact congrArg ((st.addArg text).bind ·) (funext ih)
    | newline | blanks | other => exact ih st

/-- yylex stores the tokens one after the other. -/
theorem yylex_eq (st : Lexer) (input : List UInt8) : st.yylex input =
    st.reset.bind fun st => ((tokensOf input).foldlM addArg st).map (·, hasNewline input) := by
  unfold yylex
  congr 1
  funext st
  rw [MaximalMunch.Rules.run_eq, act_tokens]
  rfl

/-- More turns make no difference. -/
theorem yylex_of_le (st : Lexer) {input : List UInt8} {n : Nat} (hn : input.length ≤ n) :
    st.reset.bind (shellRules.run act n input) = st.yylex input := by
  unfold yylex
  congr 1
  funext st
  exact MaximalMunch.Rules.run_of_le act st hn

theorem yylex_fits (st : Lexer) {input : List UInt8}
    (hfit : (image ((tokensOf input).take (argsSize - 1))).length ≤ linebufSize) :
    ∃ st', st.yylex input = some (st', hasNewline input) ∧
      st'.Stored ((tokensOf input).take (argsSize - 1)) := by
  obtain ⟨st₁, hs, h⟩ := reset_stored st
  obtain ⟨st', hs', h'⟩ := (h.addArgs (Nat.zero_le _) (Nat.zero_le _) (tokensOf input)).1 hfit
  refine ⟨st', ?_, h'⟩
  rw [yylex_eq, hs, Option.bind_some, hs', Option.map_some]

theorem yylex_none (st : Lexer) {input : List UInt8}
    (hfull : linebufSize < (image ((tokensOf input).take (argsSize - 1))).length) :
    st.yylex input = none := by
  obtain ⟨st₁, hs, h⟩ := reset_stored st
  rw [yylex_eq, hs, Option.bind_some,
    (h.addArgs (Nat.zero_le _) (Nat.zero_le _) (tokensOf input)).2 hfull, Option.map_none]

/-- Where a token without NUL lies. -/
theorem image_split {toks : List Bytes} {k : Nat} {t : Bytes} (hk : toks[k]? = some t)
    (hnul : 0 ∉ t) : ∃ post, image toks = image (toks.take k) ++ (t ++ 0 :: post) := by
  obtain ⟨hlt, ht⟩ := List.getElem?_eq_some_iff.mp hk
  refine ⟨image (toks.drop (k + 1)), ?_⟩
  conv_lhs => rw [← List.take_append_drop k toks, ← List.getElem_cons_drop hlt, ht]
  rw [image_append, image_cons, beforeNul_self hnul]

theorem Filled.stringAt {img pre post : List UInt8} {t : Bytes} (h : st.Filled img)
    (himg : img = pre ++ (t ++ 0 :: post)) (hnul : 0 ∉ t) :
    StringAt st.linebuf pre.length t := by
  refine ⟨fun i b hb => h.byte _ b ?_, h.byte _ 0 ?_, hnul⟩
  · obtain ⟨hi, -⟩ := List.getElem?_eq_some_iff.mp hb
    rw [himg, List.getElem?_append_right (Nat.le_add_right _ _), Nat.add_sub_cancel_left,
      List.getElem?_append_left hi, hb]
  · rw [himg, List.getElem?_append_right (Nat.le_add_right _ _), Nat.add_sub_cancel_left,
      List.getElem?_append_right (Nat.le_refl _), Nat.sub_self]
    rfl

theorem Stored.argsHold (h : st.Stored toks) (hnul : ∀ t ∈ toks, 0 ∉ t) : st.ArgsHold toks := by
  have hapart : ∀ j k t, toks[j]? = some t → j < k → k ≤ toks.length →
      (image (toks.take j)).length + t.length < (image (toks.take k)).length := by
    intro j k t hj hjk hk
    obtain ⟨hlt, ht⟩ := List.getElem?_eq_some_iff.mp hj
    have hconcat : toks.take j ++ [t] = toks.take (j + 1) := by
      rw [← ht]
      exact List.take_append_getElem hlt
    have hprefix : toks.take (j + 1) <+: toks.take k :=
      List.prefix_take_iff.mpr ⟨List.take_prefix _ _, by rw [List.length_take]; omega⟩
    have hle := image_length_le hprefix
    rw [← hconcat, image_concat_length, beforeNul_self (hnul t (List.mem_of_getElem? hj))] at hle
    omega
  refine ⟨fun k => (image (toks.take k)).length, fun k t hk => ?_, h.null,
    fun j k t u hj hk hne => ?_⟩
  · obtain ⟨hlt, -⟩ := List.getElem?_eq_some_iff.mp hk
    have ht := hnul t (List.mem_of_getElem? hk)
    obtain ⟨post, himg⟩ := image_split hk ht
    exact ⟨h.pointer k hlt, h.filled.stringAt himg ht⟩
  · obtain ⟨hj', -⟩ := List.getElem?_eq_some_iff.mp hj
    obtain ⟨hk', -⟩ := List.getElem?_eq_some_iff.mp hk
    rcases Nat.lt_or_gt_of_ne hne with hlt | hlt
    · exact Or.inl (hapart j k t hj hlt (Nat.le_of_lt hk'))
    · exact Or.inr (hapart k j u hk hlt (Nat.le_of_lt hj'))

end Lexer

/-- The lexer keeps its buffers if and only if the first 255 tokens, each as far as a NUL byte in it
and with a terminator, fit into `_linebuf`, and those of a line have no NUL byte. -/
theorem lexer_keeps_iff (st : Lexer) (input : List UInt8) : LexerKeeps st input ↔
    (((tokensOf input).take (argsSize - 1)).map fun t => (beforeNul t).length + 1).sum ≤
      linebufSize ∧
    (hasNewline input = true → ∀ t ∈ (tokensOf input).take (argsSize - 1), 0 ∉ t) := by
  rw [← image_length]
  constructor
  · rintro ⟨r, hr, hhold⟩
    refine ⟨?_, fun hline t ht => ?_⟩
    · by_contra hfull
      rw [Lexer.yylex_none st (Nat.lt_of_not_le hfull)] at hr
      cases hr
    · obtain ⟨p, hp, -⟩ := hhold hline
      obtain ⟨k, hk⟩ := List.mem_iff_getElem?.mp ht
      exact (hp k t hk).2.noNul
  · rintro ⟨hfit, hnul⟩
    obtain ⟨st', hs, h⟩ := Lexer.yylex_fits st hfit
    exact ⟨_, hs, fun hline => h.argsHold (hnul hline)⟩

/-- No rule goes on over a newline, quotes apart. -/
theorem rule_newline {b : UInt8} {t : List UInt8} (hn : newlineByte ∈ b :: t) (ht : t ≠ [])
    (hb : b ≠ 0x27 ∧ b ≠ 0x22) : shellRules.rule (b :: t) = none := by
  have hall : ∀ p : UInt8 → Bool, p newlineByte = false → (b :: t).all p = false := by
    intro p hp
    exact List.all_eq_false.mpr ⟨newlineByte, hn, by rw [hp]; simp⟩
  have hword : isWord (b :: t) = false := by
    rw [isWord, hall isWordByte (by decide), Bool.and_false]
  have hspecial : isSpecial (b :: t) = false := by
    rw [isSpecial, hall isSpecialByte (by decide), Bool.and_false]
  have hquote : isQuote (b :: t) = false := by simp [isQuote, isQuoteBy, hb]
  have htoken : LexRule.accepts .token (b :: t) = false := by
    rw [LexRule.accepts, hword, hspecial, hquote]
    rfl
  have hblanks : LexRule.accepts .blanks (b :: t) = false := by
    rw [LexRule.accepts, hall _ (by decide), Bool.and_false]
  have hnewline : LexRule.accepts .newline (b :: t) = false := by simp [LexRule.accepts, ht]
  have hother : LexRule.accepts .other (b :: t) = false := by simp [LexRule.accepts, ht]
  simp [MaximalMunch.Rules.rule, shellRules, htoken, hnewline, hblanks, hother]

/-- A word with a newline behind it is the only token. -/
theorem tokensOf_word {w : Bytes} (hne : w ≠ []) (hw : ∀ b ∈ w, isWordByte b = true)
    (rest : List UInt8) : tokensOf (w ++ newlineByte :: rest) = [w] := by
  have hlong : shellRules.longest (w ++ newlineByte :: rest) = some (.token, w.length) := by
    refine MaximalMunch.Rules.longest_eq (List.length_pos_iff.mpr hne) (by simp) ?_ ?_
    · have htoken : LexRule.accepts .token w = true := by
        rw [LexRule.accepts, isWord, decide_eq_true hne, List.all_eq_true.mpr hw]
        rfl
      rw [List.take_left, MaximalMunch.Rules.rule]
      exact List.find?_cons_of_pos htoken
    · intro j hj hle
      obtain ⟨b, w, rfl⟩ := List.exists_cons_of_ne_nil hne
      have hb : b ≠ 0x27 ∧ b ≠ 0x22 := by
        have hbw := hw b List.mem_cons_self
        refine ⟨fun he => ?_, fun he => ?_⟩
        · exact absurd hbw (by rw [he]; decide)
        · exact absurd hbw (by rw [he]; decide)
      obtain ⟨m, rfl⟩ : ∃ m, j = (b :: w).length + (m + 1) :=
        ⟨j - (b :: w).length - 1, by omega⟩
      rw [List.take_length_add_append, List.take_succ_cons]
      have hin : newlineByte ∈ (b :: w) ++ newlineByte :: rest.take m :=
        List.mem_append_right _ List.mem_cons_self
      exact rule_newline hin (by simp) hb
  have hend : shellRules.longest (newlineByte :: rest) = some (.newline, 1) := by
    refine MaximalMunch.Rules.longest_eq (by omega) (by simp) (by rfl) ?_
    intro j hj hle
    obtain ⟨m, rfl⟩ : ∃ m, j = m + 2 := ⟨j - 2, by omega⟩
    rw [List.length_cons] at hle
    have hrest : rest ≠ [] := List.length_pos_iff.mp (by omega)
    rw [List.take_succ_cons]
    exact rule_newline List.mem_cons_self (by simp [hrest]) (by decide)
  have hlen : (w ++ newlineByte :: rest).length = w.length - 1 + rest.length + 2 := by
    have hpos := List.length_pos_iff.mpr hne
    rw [List.length_append, List.length_cons]
    omega
  have hscan : shellRules.scan (w ++ newlineByte :: rest).length (w ++ newlineByte :: rest) =
      ([(.token, w)], true) := by
    have hnext : shellRules.scan (w.length - 1 + rest.length + 1) (newlineByte :: rest) =
        ([], true) := by
      rw [MaximalMunch.Rules.scan, hend]
      rfl
    rw [hlen, MaximalMunch.Rules.scan, hlong]
    simp only [List.take_left, List.drop_left, hnext]
    rfl
  rw [tokensOf, hscan]
  rfl

theorem Lexer.yylex_long_word (st : Lexer) {w : Bytes} (hw : ∀ b ∈ w, isWordByte b = true)
    (hlen : linebufSize ≤ w.length) (rest : List UInt8) :
    st.yylex (w ++ newlineByte :: rest) = none := by
  have hne : w ≠ [] := by
    intro he
    rw [he] at hlen
    exact absurd hlen (by decide)
  have hnul : 0 ∉ w := fun hin => absurd (hw 0 hin) (by decide)
  refine Lexer.yylex_none st ?_
  have hone : [w].length ≤ argsSize - 1 := by
    rw [List.length_singleton]
    decide
  rw [tokensOf_word hne hw, List.take_of_length_le hone, image_length, List.map_singleton,
    List.sum_singleton, beforeNul_self hnul]
  omega

/-- A word of 4096 bytes fills `_linebuf`, and its terminator is stored behind it. -/
theorem word_fills_linebuf : ¬LexerKeeps ⟨fun _ => none, 0, 0, fun _ => 0⟩
    (List.replicate 4096 'a'.toUInt8 ++ [newlineByte]) := by
  rintro ⟨r, hr, -⟩
  have hw : ∀ b ∈ List.replicate 4096 'a'.toUInt8, isWordByte b = true := by
    intro b hb
    rw [List.eq_of_mem_replicate hb]
    decide
  rw [Lexer.yylex_long_word _ hw (Nat.le_of_eq List.length_replicate.symm)] at hr
  cases hr

end FreeBSDEdits
