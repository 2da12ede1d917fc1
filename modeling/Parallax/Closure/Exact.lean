import Parallax.Closure.Extract

/-! Exact extraction from a file that is a row of pieces, said on its bytes of code alone: the
first `function` from the start of the line on, the brace that opens its body and the one that
closes it. -/
namespace Parallax.Closure
open Memory Scan Byte
set_option autoImplicit false
set_option maxHeartbeats 250000

/-! ## Bytes of code -/

theorem codeAt_append (o : ℕ) (ps qs : List Piece) :
    codeAt o (ps ++ qs) = codeAt o ps ++ codeAt (o + (bytesOf ps).length) qs := by
  induction ps generalizing o with
  | nil => rfl
  | cons p ps ih =>
    rw [end_cons]
    cases p with
    | code c => exact congrArg ((o, c) :: ·) (ih (o + 1))
    | _ => exact ih _

theorem codeAt_bounds {o : ℕ} {ps : List Piece} {x : ℕ × UInt8} (h : x ∈ codeAt o ps) :
    o ≤ x.1 ∧ x.1 < o + (bytesOf ps).length := by
  induction ps generalizing o with
  | nil => cases h
  | cons p ps ih =>
    rw [end_cons]
    cases p with
    | code c =>
      rcases List.mem_cons.mp h with rfl | h
      · exact ⟨le_rfl, by simp only [Piece.bytes, List.length_singleton]; omega⟩
      · obtain ⟨h1, h2⟩ := ih h
        exact ⟨by omega, h2⟩
    | _ =>
      obtain ⟨h1, h2⟩ := ih h
      exact ⟨by omega, h2⟩

theorem codeAt_split {o : ℕ} {ps : List Piece} {i : ℕ} {c : UInt8} (h : (i, c) ∈ codeAt o ps) :
    ∃ as bs, ps = as ++ .code c :: bs ∧ i = o + (bytesOf as).length := by
  induction ps generalizing o with
  | nil => cases h
  | cons p ps ih =>
    have hmem : (i, c) ∈ codeAt (o + p.bytes.length) ps →
        ∃ as bs, p :: ps = as ++ .code c :: bs ∧ i = o + (bytesOf as).length := by
      intro h
      obtain ⟨as, bs, rfl, rfl⟩ := ih h
      exact ⟨p :: as, bs, rfl, (end_cons o p as).symm⟩
    cases p with
    | code d =>
      rcases List.mem_cons.mp h with h | h
      · cases h
        exact ⟨[], ps, rfl, rfl⟩
      · exact hmem h
    | _ => exact hmem h

/-- The bytes of code of a file from offset `o` on. -/
def codeFrom (ps : List Piece) (o : ℕ) : List (ℕ × UInt8) :=
  (codeAt 0 ps).filter fun x => o ≤ x.1

/-- Offset `o` lies between two pieces. -/
def AtCode (ps : List Piece) (o : ℕ) : Prop :=
  ∃ as bs, ps = as ++ bs ∧ o = (bytesOf as).length

theorem codeFrom_append (as bs : List Piece) :
    codeFrom (as ++ bs) (bytesOf as).length = codeAt (bytesOf as).length bs := by
  rw [codeFrom, codeAt_append, Nat.zero_add, List.filter_append]
  have h1 : (codeAt 0 as).filter (fun x => (bytesOf as).length ≤ x.1) = [] := by
    rw [List.filter_eq_nil_iff]
    intro x hx
    have := (codeAt_bounds hx).2
    rw [decide_eq_true_eq]
    omega
  have h2 : (codeAt (bytesOf as).length bs).filter (fun x => (bytesOf as).length ≤ x.1) =
      codeAt (bytesOf as).length bs := by
    rw [List.filter_eq_self]
    intro x hx
    rw [decide_eq_true_eq]
    exact (codeAt_bounds hx).1
  rw [h1, h2, List.nil_append]

theorem atCode_of_mem {ps : List Piece} {o i : ℕ} {c : UInt8} (h : (i, c) ∈ codeFrom ps o) :
    AtCode ps i ∧ o ≤ i ∧ (bytesOf ps)[i]? = some c := by
  obtain ⟨hmem, hle⟩ := List.mem_filter.mp h
  obtain ⟨as, bs, rfl, hi⟩ := codeAt_split hmem
  rw [Nat.zero_add] at hi
  refine ⟨⟨as, _, rfl, hi⟩, of_decide_eq_true hle, ?_⟩
  rw [hi, bytesOf_append, bytesOf_cons]
  simp [Piece.bytes]

/-! ## The reference -/

/-- The first whole word `word` among bytes of code. -/
def firstWord (src word : List UInt8) (code : List (ℕ × UInt8)) : Option ℕ :=
  (code.find? fun x => wordAt src word x.1).map Prod.fst

/-- The first byte `stop` of code with which the weights since the start, and `d`, come to zero. -/
def firstBalanced (w : UInt8 → ℤ) (stop : UInt8) : ℤ → List (ℕ × UInt8) → Option ℕ
  | _, [] => none
  | d, (i, c) :: rest =>
    if c = stop ∧ d + w c = 0 then some i else firstBalanced w stop (d + w c) rest

def paren (c : UInt8) : ℤ := if c = lparen then 1 else if c = rparen then -1 else 0

def brace (c : UInt8) : ℤ := if c = lbrace then 1 else if c = rbrace then -1 else 0

/-- The keyword and the end of the closure that is found from offset `o` on. -/
def closureFrom (ps : List Piece) (o : ℕ) : Option (ℕ × ℕ) :=
  (firstWord (bytesOf ps) functionKeyword (codeFrom ps o)).bind fun f =>
  (firstBalanced paren lbrace 0 (codeFrom ps f)).bind fun b =>
  (firstBalanced brace rbrace 0 (codeFrom ps b)).map fun r => (f, r + 1)

theorem firstWord_cons (src word : List UInt8) (i : ℕ) (c : UInt8) (rest : List (ℕ × UInt8)) :
    firstWord src word ((i, c) :: rest) =
      if wordAt src word i = true then some i else firstWord src word rest := by
  unfold firstWord
  rw [List.find?_cons]
  cases wordAt src word i <;> rfl

theorem firstWord_mem {src word : List UInt8} {code : List (ℕ × UInt8)} {i : ℕ}
    (h : firstWord src word code = some i) : (∃ c, (i, c) ∈ code) ∧ wordAt src word i = true := by
  obtain ⟨⟨j, c⟩, hx, rfl⟩ := Option.map_eq_some_iff.mp h
  have hw := List.find?_some hx
  exact ⟨⟨c, List.mem_of_find?_eq_some hx⟩, hw⟩

theorem firstBalanced_mem {w : UInt8 → ℤ} {stop : UInt8} {d : ℤ} {code : List (ℕ × UInt8)} {i : ℕ}
    (h : firstBalanced w stop d code = some i) : (i, stop) ∈ code := by
  induction code generalizing d with
  | nil => cases h
  | cons x rest ih =>
    obtain ⟨j, c⟩ := x
    rw [firstBalanced] at h
    split_ifs at h with hc
    · cases h
      rw [hc.1]
      exact List.mem_cons_self ..
    · exact List.mem_cons_of_mem _ (ih h)

/-! ## The scanners on a row of pieces -/

/-- A scanner's part that keeps a balance. -/
def balanceAct (w : UInt8 → ℤ) (stop : UInt8) (res : ℕ → ℕ) (d : ℤ) (i : ℕ) (c : UInt8) : ℕ ⊕ ℤ :=
  if c = stop ∧ d + w c = 0 then .inl (res i) else .inr (d + w c)

theorem walkCode_balance (w : UInt8 → ℤ) (stop : UInt8) (res : ℕ → ℕ) (d : ℤ)
    (code : List (ℕ × UInt8)) :
    walkCode (balanceAct w stop res) d code = (firstBalanced w stop d code).map res := by
  induction code generalizing d with
  | nil => rfl
  | cons x rest ih =>
    obtain ⟨i, c⟩ := x
    rw [walkCode, firstBalanced, balanceAct]
    by_cases hc : c = stop ∧ d + w c = 0
    · rw [if_pos hc, if_pos hc]
      rfl
    · rw [if_neg hc, if_neg hc]
      exact ih _

theorem walkCode_word (src word : List UInt8) (code : List (ℕ × UInt8)) :
    walkCode (fun _ i _ => if wordAt src word i then .inl i else .inr ()) () code =
      firstWord src word code := by
  induction code with
  | nil => rfl
  | cons x rest ih =>
    obtain ⟨i, c⟩ := x
    rw [walkCode, firstWord_cons]
    cases wordAt src word i with
    | true => rfl
    | false => exact ih

section Scanners
variable {ps : List Piece} {src pre rest : List UInt8} {c : UInt8}

/-- A scanner's own part does what `act` does on a plain byte of code. -/
def ActsAs {σ : Type} (src : List UInt8) (code : CodeStep σ) (act : σ → ℕ → UInt8 → ℕ ⊕ σ) : Prop :=
  ∀ (pre rest : List UInt8) (c : UInt8) (acc : σ), src = pre ++ c :: rest → PlainCode c rest →
    code pre.length c (rest.headD 0) acc = .ok (ofAct pre.length (act acc pre.length c))

theorem PiecesWf.scan {σ : Type} (hw : PiecesWf ps) {code : CodeStep σ} (hf : CodeForward code)
    {act : σ → ℕ → UInt8 → ℕ ⊕ σ} (hact : ActsAs (bytesOf ps) code act) {o : ℕ} (ho : AtCode ps o)
    (acc : σ) : scanCode (bytesOf ps) code o acc = .ok (walkCode act acc (codeFrom ps o)) := by
  obtain ⟨as, bs, rfl, rfl⟩ := ho
  rw [codeFrom_append]
  exact scan_pieces hf hact hw.right (bytesOf as) (bytesOf_append as bs) acc

theorem heredocOpens_plain (h : PlainCode c rest) :
    heredocOpens (pre ++ c :: rest) pre.length c (rest.headD 0) = .ok false := by
  unfold heredocOpens
  split_ifs with hc
  · obtain ⟨hl, hn, hlen⟩ := hc
    cases rest with
    | nil => cases hn
    | cons d rest =>
      cases rest with
      | nil => simp at hlen
      | cons e rest =>
        have hd : d = less := hn
        have hb : byteAt (pre ++ c :: d :: e :: rest) (pre.length + 2) = .ok e := by
          simp [byteAt]
        have he : e ≠ less := fun he => h.not_heredoc hl ⟨rest, by rw [hd, he]; rfl⟩
        rw [hb]
        simp [Except.map, he]
  · rfl

theorem keywordStep_acts {word : List UInt8} (hne : word ≠ []) :
    ActsAs src (keywordStep src word)
      (fun _ i _ => if wordAt src word i then .inl i else .inr ()) := by
  intro pre rest c acc hs hc
  rw [keywordStep, hs, heredocOpens_plain hc, ok_bind, if_neg (by decide), keywordAt_eq _ hne,
    ok_bind]
  dsimp only
  cases wordAt (pre ++ c :: rest) word pre.length <;> rfl

theorem braceOpenStep_eq (i : ℕ) (c n : UInt8) (d : ℤ) :
    braceOpenStep i c n d = .ok (ofAct i (balanceAct paren lbrace id d i c)) := by
  have hd : (if c = rparen then (if c = lparen then d + 1 else d) - 1
      else if c = lparen then d + 1 else d) = d + paren c := by
    unfold paren
    by_cases h1 : c = lparen
    · subst h1
      rfl
    · rw [if_neg h1, if_neg h1]
      split_ifs <;> omega
  unfold braceOpenStep balanceAct
  dsimp only
  rw [hd]
  split_ifs <;> rfl

theorem braceOpenStep_acts : ActsAs src braceOpenStep (balanceAct paren lbrace id) :=
  fun pre _ c d _ _ => braceOpenStep_eq pre.length c _ d

theorem braceMatchStep_eq (i : ℕ) (c n : UInt8) (d : ℤ) :
    braceMatchStep i c n d = .ok (ofAct i (balanceAct brace rbrace (· + 1) d i c)) := by
  unfold braceMatchStep balanceAct brace
  by_cases h1 : c = lbrace
  · subst h1
    rfl
  · by_cases h2 : c = rbrace
    · subst h2
      rw [if_neg h1, if_pos rfl, if_neg h1, if_pos rfl, ← sub_eq_add_neg]
      by_cases hd : d - 1 = 0
      · rw [if_pos hd, if_pos ⟨rfl, hd⟩]
        rfl
      · rw [if_neg hd, if_neg (fun h => hd h.2)]
        rfl
    · rw [if_neg h1, if_neg h2, if_neg h1, if_neg h2, add_zero, if_neg (fun h => h2 h.1)]
      rfl

theorem braceMatchStep_acts : ActsAs src braceMatchStep (balanceAct brace rbrace (· + 1)) :=
  fun pre _ c d _ _ => braceMatchStep_eq pre.length c _ d

theorem scanFindKeyword_eq (hw : PiecesWf ps) {o : ℕ} (ho : AtCode ps o) {word : List UInt8}
    (hne : word ≠ []) :
    scanFindKeyword (bytesOf ps) o word = .ok (firstWord (bytesOf ps) word (codeFrom ps o)) := by
  rw [scanFindKeyword, hw.scan (keywordStep_forward _ word) (keywordStep_acts hne) ho,
    walkCode_word]

theorem scanBraceOpen_eq (hw : PiecesWf ps) {o : ℕ} (ho : AtCode ps o) :
    scanBraceOpen (bytesOf ps) o = .ok (firstBalanced paren lbrace 0 (codeFrom ps o)) := by
  rw [scanBraceOpen, hw.scan braceOpenStep_forward braceOpenStep_acts ho, walkCode_balance,
    Option.map_id, id]

/-- From an opening brace on, the second scan is one over the bytes of code. -/
theorem scanBraceMatch_lbrace {o : ℕ} (hb : src[o]? = some lbrace) :
    scanBraceMatch src o = scanCode src braceMatchStep o 0 := by
  have hlt := (List.getElem?_eq_some_iff.mp hb).1
  have hbyte : byteAt src o = .ok lbrace := by rw [byteAt, hb]
  rw [scanBraceMatch, if_neg (by omega), hbyte, ok_bind, if_neg (fun h => h rfl)]

theorem scanBraceMatch_eq (hw : PiecesWf ps) {o : ℕ} (ho : AtCode ps o)
    (hb : (bytesOf ps)[o]? = some lbrace) :
    scanBraceMatch (bytesOf ps) o =
      .ok ((firstBalanced brace rbrace 0 (codeFrom ps o)).map (· + 1)) := by
  rw [scanBraceMatch_lbrace hb, hw.scan braceMatchStep_forward braceMatchStep_acts ho,
    walkCode_balance]

end Scanners

/-! ## Exact extraction -/

theorem wordAt_start {src word : List UInt8} {i : ℕ} (h : wordAt src word i = true) :
    WordStart src i := by
  intro c hpos hc
  have h1 := (Bool.and_eq_true_iff.mp (Bool.and_eq_true_iff.mp h).1).2
  rw [hc] at h1
  simpa [Nat.pos_iff_ne_zero.mp hpos] using h1

/-- The pipeline on a row of pieces, from the start `o` of the line on. -/
theorem extractSlice_eq {ps : List Piece} (hw : PiecesWf ps) {L : ℤ} {o : ℕ}
    (hl : lineStart (bytesOf ps) L = some o) (ho : AtCode ps o) :
    (∀ f e, closureFrom ps o = some (f, e) → ∃ s, o ≤ s ∧ s ≤ f ∧
      StaticRun (slice (bytesOf ps) s f) ∧ WordStart (bytesOf ps) s ∧
      extractSlice (bytesOf ps) L = .ok (.text (slice (bytesOf ps) s e))) ∧
    (closureFrom ps o = none → ∃ err, extractSlice (bytesOf ps) L = .ok (.failed err)) := by
  unfold extractSlice closureFrom
  rw [offsetOfLine_eq, hl, ok_bind]
  dsimp only
  rw [scanFindKeyword_eq hw ho (by decide), ok_bind]
  cases hf : firstWord (bytesOf ps) functionKeyword (codeFrom ps o) with
  | none =>
    refine ⟨fun f e h => ?_, fun _ => ⟨_, rfl⟩⟩
    rw [Option.bind_none] at h
    cases h
  | some f =>
    obtain ⟨⟨c, hc⟩, hword⟩ := firstWord_mem hf
    obtain ⟨hfc, hof, hcf⟩ := atCode_of_mem hc
    dsimp only
    rw [scanBraceOpen_eq hw hfc, ok_bind, Option.bind_some]
    cases hb : firstBalanced paren lbrace 0 (codeFrom ps f) with
    | none =>
      refine ⟨fun f e h => ?_, fun _ => ⟨_, rfl⟩⟩
      rw [Option.bind_none] at h
      cases h
    | some b =>
      obtain ⟨hbc, hfb, hcb⟩ := atCode_of_mem (firstBalanced_mem hb)
      dsimp only
      rw [scanBraceMatch_eq hw hbc hcb, ok_bind, Option.bind_some]
      cases hr : firstBalanced brace rbrace 0 (codeFrom ps b) with
      | none =>
      refine ⟨fun f e h => ?_, fun _ => ⟨_, rfl⟩⟩
      rw [Option.map_none] at h
      cases h
      | some r =>
        obtain ⟨-, hbr, hcr⟩ := atCode_of_mem (firstBalanced_mem hr)
        have hflen := (List.getElem?_eq_some_iff.mp hcf).1
        have hrlen := (List.getElem?_eq_some_iff.mp hcr).1
        refine ⟨fun f' e h => ?_, fun h => by cases h⟩
        cases h
        obtain ⟨s, hs, hos, hsf, hrun, hws⟩ :=
          staticBack_ok f f le_rfl hof hflen.le (wordAt_start hword)
        refine ⟨s, hos, hsf, hrun, hws, ?_⟩
        rw [Option.map_some]
        dsimp only
        rw [hs, ok_bind, bytesAt_ok (by omega), ok_bind]
        rfl

theorem StaticRun.newline_not_mem {bs : List UInt8} (h : StaticRun bs) : newline ∉ bs := by
  induction h with
  | nil => exact List.not_mem_nil
  | @snoc words blanks _ _ hb ih =>
    intro hmem
    rcases List.mem_append.mp hmem with hmem | hmem
    · exact ih hmem
    · rcases List.mem_append.mp hmem with hmem | hmem
      · exact absurd hmem (by decide)
      · exact absurd (hb _ hmem) (by decide)

section Extract
variable (readFile : List UInt8 → Option (List UInt8)) (name : List UInt8)

theorem extractClosureText_read (hname : refused (some name) = false) {src : List UInt8}
    (hread : readFile name = some src) (L : ℤ) :
    extractClosureText readFile (some name) L = extractSlice src L := by
  rw [extractClosureText, hname, if_neg Bool.false_ne_true, Option.bind_some, hread]

/-- Exact extraction. The words `static` taken along stand on the line of `function`, which may be
a later one than line `L`. -/
theorem extractClosureText_exact (hname : refused (some name) = false) (ps : List Piece)
    (hread : readFile name = some (bytesOf ps)) (hw : PiecesWf ps) (L : ℤ)
    (hL : ∀ o, lineStart (bytesOf ps) L = some o → AtCode ps o) :
    (∀ o f e, lineStart (bytesOf ps) L = some o → closureFrom ps o = some (f, e) →
      ∃ s, o ≤ s ∧ s ≤ f ∧ StaticRun (slice (bytesOf ps) s f) ∧
        newline ∉ slice (bytesOf ps) s f ∧ WordStart (bytesOf ps) s ∧
        extractClosureText readFile (some name) L = .ok (.text (slice (bytesOf ps) s e))) ∧
    ((∀ o, lineStart (bytesOf ps) L = some o → closureFrom ps o = none) →
      ∃ err, extractClosureText readFile (some name) L = .ok (.failed err)) := by
  rw [extractClosureText_read readFile name hname hread]
  constructor
  · intro o f e hl hc
    obtain ⟨s, hos, hsf, hrun, hws, heq⟩ := (extractSlice_eq hw hl (hL o hl)).1 f e hc
    exact ⟨s, hos, hsf, hrun, hrun.newline_not_mem, hws, heq⟩
  · intro hnone
    cases hl : lineStart (bytesOf ps) L with
    | none =>
      refine ⟨"closure line number is out of range for its file", ?_⟩
      rw [extractSlice, offsetOfLine_eq, hl]
      rfl
    | some o => exact (extractSlice_eq hw hl (hL o hl)).2 (hnone o hl)

end Extract

/-! ### Braces and keywords in strings and comments -/

def plainBytes (bs : List UInt8) : List StrUnit := bs.map .plain

/-- A comment with the word `function`, a string with an escaped quote and a comment with a quote,
and on the next line a string with a brace before the closure, which has one in a comment. -/
def mixed : List Piece :=
  [.block functionKeyword, .sq (plainBytes [0x69, 0x74] ++ .escape squote :: plainBytes [0x73]),
    .code 0x3b, .slashLine [dquote], .dq (plainBytes [rbrace]), .code 0x2e] ++
    (functionKeyword ++ [lparen, rparen, lbrace]).map Piece.code ++
    [.block [space, rbrace, space], .hashLine (squote :: functionKeyword), .code rbrace,
      .code 0x3b]

def phpName : List UInt8 := ascii ['a', '.', 'p', 'h', 'p']

def mixedFile (name : List UInt8) : Option (List UInt8) :=
  if name = phpName then some (bytesOf mixed) else none

theorem extractClosureText_exact_mixed :
    ∃ s, 24 ≤ s ∧ s ≤ 28 ∧ StaticRun (slice (bytesOf mixed) s 28) ∧
      newline ∉ slice (bytesOf mixed) s 28 ∧ WordStart (bytesOf mixed) s ∧
      extractClosureText mixedFile (some phpName) 2 =
        .ok (.text (slice (bytesOf mixed) s 58)) :=
  (extractClosureText_exact mixedFile phpName (by decide +kernel) mixed (by decide +kernel)
    (by decide +kernel) 2 (fun o ho => by
      cases ho
      exact ⟨mixed.take 4, mixed.drop 4, rfl, rfl⟩)).1 24 28 58 rfl (by decide +kernel)

/-! ### A word `static` on a later line -/

/-- `static function()\x7b\x7d` on the second line of a file. -/
def laterLine : List Piece :=
  (newline :: (staticKeyword ++ space :: (functionKeyword ++
    [lparen, rparen, lbrace, rbrace]))).map Piece.code

def laterLineFile (name : List UInt8) : Option (List UInt8) :=
  if name = phpName then some (bytesOf laterLine) else none

/-- Offset `k` stands on line `L`. -/
def OnLine (src : List UInt8) (L : ℤ) (k : ℕ) : Prop :=
  ∃ a, lineStart src L = some a ∧ a ≤ k ∧ ∀ b, lineStart src (L + 1) = some b → k < b

/-- No start `s` gives the text that is returned with `[s, f)` on line `L` itself. -/
theorem extractClosureText_exact_not_onLine :
    PiecesWf laterLine ∧ AtCode laterLine 0 ∧ lineStart (bytesOf laterLine) 1 = some 0 ∧
      closureFrom laterLine 0 = some (8, 20) ∧
      ¬ ∃ s, s ≤ 8 ∧ StaticRun (slice (bytesOf laterLine) s 8) ∧
        (∀ k, s ≤ k → k < 8 → OnLine (bytesOf laterLine) 1 k) ∧
        extractClosureText laterLineFile (some phpName) 1 =
          .ok (.text (slice (bytesOf laterLine) s 20)) := by
  refine ⟨by decide +kernel, ⟨[], laterLine, rfl, rfl⟩, rfl, by decide +kernel, ?_⟩
  rintro ⟨s, hs, -, hline, htext⟩
  have hseven : extractClosureText laterLineFile (some phpName) 1 =
      .ok (.text (slice (bytesOf laterLine) 1 20)) := by decide +kernel
  rw [hseven] at htext
  have hlen := congrArg List.length (Extracted.text.inj (Except.ok.inj htext))
  simp only [slice, List.length_take, List.length_drop,
    show (bytesOf laterLine).length = 20 from rfl] at hlen
  obtain ⟨a, -, -, hlast⟩ := hline s le_rfl (by omega)
  have := hlast 1 rfl
  omega

end Parallax.Closure
