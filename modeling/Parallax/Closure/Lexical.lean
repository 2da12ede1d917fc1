import Parallax.Closure.Scan

/-! The lexical structure a source file has on paper: bytes of code, quoted strings and comments
in a row. Each of the scanners of `bridge_closure.c` tracks it, from any place between two pieces
on: a scan is a walk over the bytes of code alone. -/
namespace Parallax.Closure
open Memory Scan Byte
set_option autoImplicit false
set_option maxHeartbeats 250000

/-! ## Files as rows of pieces -/

/-- A byte of a quoted string, or a backslash with the byte it escapes. -/
inductive StrUnit
  | plain (c : UInt8)
  | escape (c : UInt8)

def StrUnit.bytes : StrUnit → List UInt8
  | .plain c => [c]
  | .escape c => [backslash, c]

def StrUnit.Wf (quote : UInt8) : StrUnit → Prop
  | .plain c => c ≠ quote ∧ c ≠ backslash
  | .escape _ => True

def unitBytes (body : List StrUnit) : List UInt8 := body.flatMap StrUnit.bytes

inductive Piece
  | code (c : UInt8)
  | sq (body : List StrUnit)
  | dq (body : List StrUnit)
  /-- A comment after `//` or `#`, with its newline. -/
  | slashLine (body : List UInt8)
  | hashLine (body : List UInt8)
  | block (body : List UInt8)

def Piece.bytes : Piece → List UInt8
  | .code c => [c]
  | .sq body => squote :: (unitBytes body ++ [squote])
  | .dq body => dquote :: (unitBytes body ++ [dquote])
  | .slashLine body => slash :: slash :: (body ++ [newline])
  | .hashLine body => hashSign :: (body ++ [newline])
  | .block body => slash :: asterisk :: (body ++ [asterisk, slash])

/-- A plain byte of code, given what follows it: it opens no string, comment or heredoc. -/
structure PlainCode (c : UInt8) (after : List UInt8) : Prop where
  not_squote : c ≠ squote
  not_dquote : c ≠ dquote
  not_comment : c = slash → after.head? ≠ some slash ∧ after.head? ≠ some asterisk
  not_hash : c = hashSign → after.head? = some lbracket
  not_heredoc : c = less → ¬ [less, less] <+: after

def Piece.Wf (after : List UInt8) : Piece → Prop
  | .code c => PlainCode c after
  | .sq body => ∀ u ∈ body, u.Wf squote
  | .dq body => ∀ u ∈ body, u.Wf dquote
  | .slashLine body => newline ∉ body
  | .hashLine body => newline ∉ body ∧ body.head? ≠ some lbracket
  | .block body => ¬ [asterisk, slash] <:+: body

def bytesOf (ps : List Piece) : List UInt8 := ps.flatMap Piece.bytes

def PiecesWf : List Piece → Prop
  | [] => True
  | p :: ps => p.Wf (bytesOf ps) ∧ PiecesWf ps

instance (c : UInt8) (after : List UInt8) : Decidable (PlainCode c after) :=
  decidable_of_iff (c ≠ squote ∧ c ≠ dquote ∧
      (c = slash → after.head? ≠ some slash ∧ after.head? ≠ some asterisk) ∧
      (c = hashSign → after.head? = some lbracket) ∧ (c = less → ¬ [less, less] <+: after))
    ⟨fun ⟨h1, h2, h3, h4, h5⟩ => ⟨h1, h2, h3, h4, h5⟩,
      fun ⟨h1, h2, h3, h4, h5⟩ => ⟨h1, h2, h3, h4, h5⟩⟩

instance (quote : UInt8) : (u : StrUnit) → Decidable (u.Wf quote)
  | .plain c => inferInstanceAs (Decidable (c ≠ quote ∧ c ≠ backslash))
  | .escape _ => inferInstanceAs (Decidable True)

instance (after : List UInt8) : (p : Piece) → Decidable (p.Wf after)
  | .code c => inferInstanceAs (Decidable (PlainCode c after))
  | .sq body => inferInstanceAs (Decidable (∀ u ∈ body, u.Wf squote))
  | .dq body => inferInstanceAs (Decidable (∀ u ∈ body, u.Wf dquote))
  | .slashLine body => inferInstanceAs (Decidable (newline ∉ body))
  | .hashLine body => inferInstanceAs (Decidable (newline ∉ body ∧ body.head? ≠ some lbracket))
  | .block body => inferInstanceAs (Decidable (¬ [asterisk, slash] <:+: body))

def decPiecesWf : (ps : List Piece) → Decidable (PiecesWf ps)
  | [] => inferInstanceAs (Decidable True)
  | p :: ps =>
    have : Decidable (PiecesWf ps) := decPiecesWf ps
    inferInstanceAs (Decidable (p.Wf (bytesOf ps) ∧ PiecesWf ps))

instance (ps : List Piece) : Decidable (PiecesWf ps) := decPiecesWf ps

@[simp] theorem bytesOf_nil : bytesOf [] = [] := rfl

@[simp] theorem bytesOf_cons (p : Piece) (ps : List Piece) :
    bytesOf (p :: ps) = p.bytes ++ bytesOf ps := rfl

theorem end_cons (o : ℕ) (p : Piece) (ps : List Piece) :
    o + (bytesOf (p :: ps)).length = o + p.bytes.length + (bytesOf ps).length := by
  rw [bytesOf_cons, List.length_append, Nat.add_assoc]

@[simp] theorem bytesOf_append (ps qs : List Piece) :
    bytesOf (ps ++ qs) = bytesOf ps ++ bytesOf qs := List.flatMap_append ..

theorem PiecesWf.right {ps qs : List Piece} (h : PiecesWf (ps ++ qs)) : PiecesWf qs := by
  induction ps with
  | nil => exact h
  | cons p ps ih => exact ih h.2

/-- The code-level bytes of the pieces from offset `o` on, with their offsets. -/
def codeAt : ℕ → List Piece → List (ℕ × UInt8)
  | _, [] => []
  | o, .code c :: ps => (o, c) :: codeAt (o + 1) ps
  | o, p :: ps => codeAt (o + p.bytes.length) ps

/-! ## One byte of the switch -/

section Switch
variable {σ : Type} {src : List UInt8} {code : CodeStep σ} {acc : σ}

/-- A scanner's own part never goes back. -/
def CodeForward (code : CodeStep σ) : Prop :=
  ∀ i c n acc s j, code i c n acc = .ok (.next s j) → i < j

theorem lexByte_forward (hf : CodeForward code) {i : ℕ} {c n : UInt8} {st : ScanState}
    {s : ScanState × σ} {j : ℕ} (h : lexByte code i c n st acc = .ok (.next s j)) : i < j := by
  unfold lexByte at h
  cases st <;> dsimp only at h <;> split_ifs at h <;>
    first
    | exact hf _ _ _ _ _ _ h
    | (simp only [Except.ok.injEq, Verdict.next.injEq] at h; omega)

theorem lexStep_forward (hf : CodeForward code) : Forward (lexStep src code) := by
  intro i s s' j h
  obtain ⟨c, -, h⟩ := bind_ok h
  obtain ⟨n, -, h⟩ := bind_ok h
  exact lexByte_forward hf h

theorem lexStep_at {pre rest : List UInt8} {c : UInt8} (hs : src = pre ++ c :: rest)
    (st : ScanState) (acc : σ) :
    lexStep src code pre.length (st, acc) = lexByte code pre.length c (rest.headD 0) st acc := by
  subst hs
  have hn : nextByte (pre ++ c :: rest) pre.length = .ok (rest.headD 0) := by
    unfold nextByte
    cases rest with
    | nil => rw [if_neg (by simp)]; rfl
    | cons d rest =>
      have := byteAt_append (pre ++ [c]) rest d
      rw [List.append_assoc, List.singleton_append, List.length_append, List.length_singleton]
        at this
      rw [if_pos (by simp), this]
      rfl
  rw [lexStep, byteAt_append, ok_bind, hn, ok_bind]

theorem reaches_byte (code : CodeStep σ) (acc : σ) (st st' : ScanState) {pre rest : List UInt8}
    {c : UInt8} {j : ℕ} (hs : src = pre ++ c :: rest)
    (h : lexByte code pre.length c (rest.headD 0) st acc = .ok (.next (st', acc) j)) :
    Reaches src.length (lexStep src code) pre.length (st, acc) j (st', acc) := by
  refine Reaches.next ?_ ?_
  · rw [hs, List.length_append, List.length_cons]
    omega
  · rw [lexStep_at hs, h]

/-! ## One piece -/

/-- The two string states and their quotes. -/
def IsString (st : ScanState) (quote : UInt8) : Prop :=
  (st = .sqString ∧ quote = squote) ∨ (st = .dqString ∧ quote = dquote)

theorem lexByte_string {st : ScanState} {quote : UInt8} (h : IsString st quote) (i : ℕ)
    (c n : UInt8) :
    lexByte code i c n st acc =
      if c = backslash ∧ n ≠ 0 then .ok (.next (st, acc) (i + 2))
      else if c = quote then .ok (.next (.normal, acc) (i + 1))
      else .ok (.next (st, acc) (i + 1)) := by
  rcases h with ⟨rfl, rfl⟩ | ⟨rfl, rfl⟩ <;> rfl

theorem IsString.quote_ne {st : ScanState} {quote : UInt8} (h : IsString st quote) :
    quote ≠ backslash ∧ quote ≠ 0 := by
  rcases h with ⟨-, rfl⟩ | ⟨-, rfl⟩ <;> decide

theorem reaches_string (code : CodeStep σ) (acc : σ) {st : ScanState} {quote : UInt8}
    (hq : IsString st quote) {body : List StrUnit} (hw : ∀ u ∈ body, u.Wf quote)
    (pre rest : List UInt8) (hs : src = pre ++ (unitBytes body ++ quote :: rest)) :
    Reaches src.length (lexStep src code) pre.length (st, acc)
      (pre.length + ((unitBytes body).length + 1)) (.normal, acc) := by
  obtain ⟨hqb, hq0⟩ := hq.quote_ne
  induction body generalizing pre with
  | nil =>
    refine reaches_byte code acc _ _ hs ?_
    rw [lexByte_string hq, if_neg (fun h => hqb h.1), if_pos rfl]
    rfl
  | cons u body ih =>
    have hwu := hw u (List.mem_cons_self ..)
    have ih := ih fun v hv => hw v (List.mem_cons_of_mem _ hv)
    cases u with
    | plain c =>
      have hs' : src = pre ++ c :: (unitBytes body ++ quote :: rest) := hs
      have h1 := reaches_byte code acc st st hs' (by
        rw [lexByte_string hq, if_neg (fun h => hwu.2 h.1), if_neg hwu.1])
      have h2 := ih (pre ++ [c]) (by rw [hs', List.append_assoc]; rfl)
      rw [List.length_append, List.length_singleton] at h2
      have hlen : (unitBytes (.plain c :: body)).length = (unitBytes body).length + 1 := rfl
      rw [hlen]
      have e : pre.length + 1 + ((unitBytes body).length + 1) =
          pre.length + ((unitBytes body).length + 1 + 1) := by omega
      rw [← e]
      exact h1.trans h2
    | escape c =>
      have hs' : src = pre ++ backslash :: c :: (unitBytes body ++ quote :: rest) := hs
      have h2 := ih (pre ++ [backslash, c]) (by rw [hs', List.append_assoc]; rfl)
      rw [List.length_append] at h2
      have hlen : (unitBytes (.escape c :: body)).length = (unitBytes body).length + 2 := rfl
      have e : pre.length + [backslash, c].length + ((unitBytes body).length + 1) =
          pre.length + ((unitBytes body).length + 2 + 1) := by
        simp only [List.length_cons, List.length_nil]
        omega
      rw [hlen, ← e]
      refine Reaches.trans ?_ h2
      by_cases hc : c = 0
      · -- an escaped NUL is read as two plain bytes
        subst hc
        have h1 := reaches_byte code acc st st hs' (by
          rw [lexByte_string hq, if_neg (fun h => h.2 rfl), if_neg hqb.symm])
        refine h1.trans ?_
        have hs'' : src = (pre ++ [backslash]) ++ 0 :: (unitBytes body ++ quote :: rest) := by
          rw [hs', List.append_assoc]
          rfl
        have h3 := reaches_byte code acc st st hs'' (by
          rw [lexByte_string hq, if_neg (fun h => by cases h.1), if_neg hq0.symm])
        rw [List.length_append, List.length_singleton] at h3
        exact h3
      · exact reaches_byte code acc st st hs' (by
          rw [lexByte_string hq, if_pos ⟨rfl, hc⟩]
          rfl)

theorem reaches_lineBody (code : CodeStep σ) (acc : σ) {body : List UInt8} (hw : newline ∉ body)
    (pre rest : List UInt8) (hs : src = pre ++ (body ++ rest)) :
    Reaches src.length (lexStep src code) pre.length (.lineComment, acc)
      (pre.length + body.length) (.lineComment, acc) := by
  induction body generalizing pre with
  | nil => exact Reaches.refl _ _
  | cons c body ih =>
    have hc : c ≠ newline := fun h => hw (by rw [h]; exact List.mem_cons_self ..)
    have hs' : src = pre ++ c :: (body ++ rest) := hs
    have h1 := reaches_byte code acc .lineComment .lineComment hs' (by
      rw [lexByte, if_neg hc])
    have h2 := ih (fun h => hw (List.mem_cons_of_mem _ h)) (pre ++ [c])
      (by rw [hs', List.append_assoc]; rfl)
    rw [List.length_append, List.length_singleton] at h2
    have e : pre.length + 1 + body.length = pre.length + (c :: body).length := by
      rw [List.length_cons]
      omega
    rw [← e]
    exact h1.trans h2

theorem reaches_line (code : CodeStep σ) (acc : σ) {body : List UInt8} (hw : newline ∉ body)
    (pre rest : List UInt8) (hs : src = pre ++ (body ++ newline :: rest)) :
    Reaches src.length (lexStep src code) pre.length (.lineComment, acc)
      (pre.length + (body.length + 1)) (.normal, acc) := by
  have hbody := reaches_lineBody code acc hw pre (newline :: rest) hs
  have hs' : src = (pre ++ body) ++ newline :: rest := by rw [hs, List.append_assoc]
  have hend := reaches_byte code acc .lineComment .normal hs' rfl
  rw [List.length_append] at hend
  exact hbody.trans hend

theorem reaches_block (code : CodeStep σ) (acc : σ) {body : List UInt8}
    (hw : ¬ [asterisk, slash] <:+: body) (pre rest : List UInt8)
    (hs : src = pre ++ (body ++ asterisk :: slash :: rest)) :
    Reaches src.length (lexStep src code) pre.length (.blockComment, acc)
      (pre.length + (body.length + 2)) (.normal, acc) := by
  induction body generalizing pre with
  | nil => exact reaches_byte code acc _ _ hs rfl
  | cons c body ih =>
    have hs' : src = pre ++ c :: (body ++ asterisk :: slash :: rest) := hs
    -- a star here is not followed by a slash: neither in the body nor by the star of the end
    have hns : ¬ (c = asterisk ∧ (body ++ asterisk :: slash :: rest).headD 0 = slash) := by
      rintro ⟨rfl, hh⟩
      cases body with
      | nil => cases hh
      | cons d body =>
        have hd : d = slash := hh
        subst hd
        exact hw ⟨[], body, rfl⟩
    have h1 := reaches_byte code acc .blockComment .blockComment hs' (by
      rw [lexByte, if_neg hns])
    have h2 := ih (fun h => hw (h.trans (List.infix_cons (List.infix_refl _)))) (pre ++ [c])
      (by rw [hs', List.append_assoc]; rfl)
    rw [List.length_append, List.length_singleton] at h2
    have e : pre.length + 1 + (body.length + 2) = pre.length + ((c :: body).length + 2) := by
      rw [List.length_cons]
      omega
    rw [← e]
    exact h1.trans h2

theorem headD_eq {rest : List UInt8} {b : UInt8} (hb : b ≠ 0) (h : rest.headD 0 = b) :
    rest.head? = some b := by
  cases rest with
  | nil => exact absurd h.symm hb
  | cons d rest => exact congrArg some h

theorem lexByte_code {c : UInt8} {rest : List UInt8} (h : PlainCode c rest) (i : ℕ) :
    lexByte code i c (rest.headD 0) .normal acc = code i c (rest.headD 0) acc := by
  have h1 : ¬ (c = slash ∧ rest.headD 0 = slash) := fun hc =>
    (h.not_comment hc.1).1 (headD_eq (by decide) hc.2)
  have h2 : ¬ (c = hashSign ∧ rest.headD 0 ≠ lbracket) := by
    rintro ⟨hc, hn⟩
    have hh := h.not_hash hc
    cases rest with
    | nil => cases hh
    | cons d rest => exact hn (Option.some.inj hh)
  have h3 : ¬ (c = slash ∧ rest.headD 0 = asterisk) := fun hc =>
    (h.not_comment hc.1).2 (headD_eq (by decide) hc.2)
  rw [lexByte, if_neg h.not_squote, if_neg h.not_dquote, if_neg h1, if_neg h2, if_neg h3]

/-- On a byte of code a scanner does what its own part does. -/
theorem lexStep_code {pre rest : List UInt8} {c : UInt8} {v : Verdict (ScanState × σ) ℕ} {acc : σ}
    (hs : src = pre ++ c :: rest) (hc : PlainCode c rest)
    (hv : code pre.length c (rest.headD 0) acc = .ok v) :
    pre.length < src.length ∧ lexStep src code pre.length (.normal, acc) = .ok v := by
  constructor
  · rw [hs, List.length_append, List.length_cons]
    omega
  · rw [lexStep_at hs, lexByte_code hc, hv]

def Piece.IsCode : Piece → Prop
  | .code _ => True
  | _ => False

theorem Reaches.open_body {b pre : List UInt8} {n j : ℕ} {st st' : ScanState}
    (h : Reaches src.length (lexStep src code) pre.length (st, acc)
      (pre.length + b.length) (st', acc))
    (h' : Reaches src.length (lexStep src code) (pre ++ b).length (st', acc)
      ((pre ++ b).length + n) (.normal, acc)) (hj : j = pre.length + (b.length + n)) :
    Reaches src.length (lexStep src code) pre.length (st, acc) j (.normal, acc) := by
  rw [List.length_append, Nat.add_assoc] at h'
  rw [hj]
  exact h.trans h'

/-- A string or a comment takes a scanner from code level back to it and leaves its count. -/
theorem reaches_piece (code : CodeStep σ) (acc : σ) {p : Piece} {rest : List UInt8}
    (hw : p.Wf rest) (hp : ¬ p.IsCode) (pre : List UInt8) (hs : src = pre ++ (p.bytes ++ rest)) :
    Reaches src.length (lexStep src code) pre.length (.normal, acc)
      (pre.length + p.bytes.length) (.normal, acc) := by
  cases p with
  | code c => exact absurd trivial hp
  | sq body =>
    have hs' : src = pre ++ squote :: (unitBytes body ++ squote :: rest) := by
      rw [hs]
      simp [Piece.bytes]
    have h1 := reaches_byte code acc .normal .sqString hs' rfl
    have hs2 : src = (pre ++ [squote]) ++ (unitBytes body ++ squote :: rest) := by
      rw [hs', List.append_assoc, List.singleton_append]
    have h2 := reaches_string code acc (Or.inl ⟨rfl, rfl⟩) hw (pre ++ [squote]) rest hs2
    exact Reaches.open_body (b := [squote]) h1 h2 (by simp [Piece.bytes]; omega)
  | dq body =>
    have hs' : src = pre ++ dquote :: (unitBytes body ++ dquote :: rest) := by
      rw [hs]
      simp [Piece.bytes]
    have h1 := reaches_byte code acc .normal .dqString hs' rfl
    have hs2 : src = (pre ++ [dquote]) ++ (unitBytes body ++ dquote :: rest) := by
      rw [hs', List.append_assoc, List.singleton_append]
    have h2 := reaches_string code acc (Or.inr ⟨rfl, rfl⟩) hw (pre ++ [dquote]) rest hs2
    exact Reaches.open_body (b := [dquote]) h1 h2 (by simp [Piece.bytes]; omega)
  | slashLine body =>
    have hs' : src = pre ++ slash :: slash :: (body ++ newline :: rest) := by
      rw [hs]
      simp [Piece.bytes]
    have h1 := reaches_byte code acc .normal .lineComment hs' rfl
    have hs2 : src = (pre ++ [slash, slash]) ++ (body ++ newline :: rest) := by
      rw [hs', List.append_assoc]
      rfl
    have h2 := reaches_line code acc hw (pre ++ [slash, slash]) rest hs2
    exact Reaches.open_body (b := [slash, slash]) h1 h2 (by simp [Piece.bytes]; omega)
  | hashLine body =>
    have hs' : src = pre ++ hashSign :: (body ++ newline :: rest) := by
      rw [hs]
      simp [Piece.bytes]
    -- `#[` would open an attribute instead
    have hn : (body ++ newline :: rest).headD 0 ≠ lbracket := by
      cases body with
      | nil => exact (by decide : newline ≠ lbracket)
      | cons d body => exact fun hd => hw.2 (congrArg some hd)
    have h1 := reaches_byte code acc .normal .lineComment hs' (by
      rw [lexByte, if_neg (by decide), if_neg (by decide),
        if_neg (fun h => (by decide : hashSign ≠ slash) h.1), if_pos ⟨rfl, hn⟩])
    have hs2 : src = (pre ++ [hashSign]) ++ (body ++ newline :: rest) := by
      rw [hs', List.append_assoc, List.singleton_append]
    have h2 := reaches_line code acc hw.1 (pre ++ [hashSign]) rest hs2
    exact Reaches.open_body (b := [hashSign]) h1 h2 (by simp [Piece.bytes]; omega)
  | block body =>
    have hs' : src = pre ++ slash :: asterisk :: (body ++ asterisk :: slash :: rest) := by
      rw [hs]
      simp [Piece.bytes]
    have h1 := reaches_byte code acc .normal .blockComment hs' rfl
    have hs2 : src = (pre ++ [slash, asterisk]) ++ (body ++ asterisk :: slash :: rest) := by
      rw [hs', List.append_assoc]
      rfl
    have h2 := reaches_block code acc hw (pre ++ [slash, asterisk]) rest hs2
    exact Reaches.open_body (b := [slash, asterisk]) h1 h2 (by simp [Piece.bytes]; omega)

/-! ## A scan over the pieces -/

/-- A walk over bytes of code: `act` gives a result or the count to go on with. -/
def walkCode (act : σ → ℕ → UInt8 → ℕ ⊕ σ) : σ → List (ℕ × UInt8) → Option ℕ
  | _, [] => none
  | acc, (i, c) :: rest =>
    match act acc i c with
    | .inl r => some r
    | .inr acc => walkCode act acc rest

/-- A scanner's own part as a walk does it. -/
def ofAct (i : ℕ) : ℕ ⊕ σ → Verdict (ScanState × σ) ℕ
  | .inl r => .stop r
  | .inr acc => .next (.normal, acc) (i + 1)

/-- From any place between two pieces on, a scan is a walk over the code-level bytes. -/
theorem scan_pieces (hf : CodeForward code) {act : σ → ℕ → UInt8 → ℕ ⊕ σ}
    (hact : ∀ (pre rest : List UInt8) (c : UInt8) (acc : σ), src = pre ++ c :: rest →
      PlainCode c rest →
      code pre.length c (rest.headD 0) acc = .ok (ofAct pre.length (act acc pre.length c)))
    {ps : List Piece} (hw : PiecesWf ps) (pre : List UInt8) (hs : src = pre ++ bytesOf ps)
    (acc : σ) :
    scanCode src code pre.length acc = .ok (walkCode act acc (codeAt pre.length ps)) := by
  induction ps generalizing pre acc with
  | nil =>
    rw [scanCode, scanFrom_end _ (by rw [hs]; simp)]
    rfl
  | cons p ps ih =>
    obtain ⟨hp, hps⟩ := hw
    by_cases hc : p.IsCode
    · cases p with
      | code c =>
        have hs' : src = pre ++ c :: bytesOf ps := hs
        obtain ⟨hlt, hstep⟩ := lexStep_code hs' hp (hact pre _ c acc hs' hp)
        rw [codeAt, walkCode, scanCode]
        cases ha : act acc pre.length c with
        | inl r =>
          rw [ha] at hstep
          rw [scanFrom_stop hlt hstep]
          rfl
        | inr acc' =>
          rw [ha] at hstep
          have h := ih hps (pre ++ [c]) (by rw [hs', List.append_assoc]; rfl) acc'
          rw [List.length_append, List.length_singleton, scanCode] at h
          rw [scanFrom_next (lexStep_forward hf) hlt hstep]
          exact h
      | _ => exact absurd hc (fun h => h)
    · have hs' : src = (pre ++ p.bytes) ++ bytesOf ps := by
        rw [hs, bytesOf_cons, List.append_assoc]
      have hreach := reaches_piece code acc hp hc pre hs
      have h := ih hps (pre ++ p.bytes) hs' acc
      rw [List.length_append] at h
      have hcode : codeAt pre.length (p :: ps) = codeAt (pre.length + p.bytes.length) ps := by
        cases p with
        | code c => exact absurd trivial hc
        | _ => rfl
      rw [hcode, ← h, scanCode, scanCode]
      exact congrArg _ (hreach.covers (lexStep_forward hf))

end Switch
end Parallax.Closure
