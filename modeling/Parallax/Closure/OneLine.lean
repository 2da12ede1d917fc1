import Parallax.Closure.Static

/-! Whether the keyword an extraction is anchored at stands on the line that was asked for. It does
when that line, with nothing after it, has a keyword for the scan to find. -/
namespace Parallax.Closure
open Memory Scan Byte
set_option autoImplicit false
set_option maxHeartbeats 250000

/-! ## A file cut off at the end of a line -/

/-- The index of the newline that ends the line from `o` on, or the end of the file. -/
def lineEnd (src : List UInt8) (o : ℕ) : ℕ := o + (src.drop o).findIdx (· == newline)

section Cut
variable {src : List UInt8} {cut lo : ℕ}

theorem heredocEnd_past {label : List UInt8} {j k : ℕ} (hlen : cut ≤ src.length) (hj : lo ≤ j)
    (hline : ∀ k, lo ≤ k → k < cut → src[k]? ≠ some newline)
    (h : heredocEnd src label j = .ok k) : cut ≤ k := by
  obtain ⟨x, hx, rfl⟩ := map_ok h
  have hstop : ∀ i (s : Unit) r, i < src.length → lo ≤ i →
      heredocEndStep src label i s = .ok (.stop r) → cut ≤ r := by
    intro i s r hi hlo hs
    by_cases hnewline : src[i] = newline
    · by_contra hr
      obtain hv | ⟨k, hk, hv⟩ := heredocEndStep_ok hs
      · cases hv
      · cases hv
        exact hline i hlo (by omega) (by rw [List.getElem?_eq_getElem hi, hnewline])
    · rw [heredocEndStep, byteAt_ok hi, ok_bind, if_neg hnewline] at hs
      cases hs
  obtain ⟨r, rfl, hr⟩ | ⟨s, i, rfl, -, hi⟩ :=
    scanFrom_inv (heredocEndStep_forward label) (P := fun i _ => lo ≤ i)
      (fun i s s' j _ hi hs => hi.trans (heredocEndStep_forward label i s s' j hs).le) hstop hj hx
  · exact hr
  · exact hlen.trans (Nat.le_of_not_lt hi)

theorem heredocSkip_past {i j : ℕ} (hlen : cut ≤ src.length)
    (hline : ∀ k, i ≤ k → k < cut → src[k]? ≠ some newline) (h : heredocSkip src i = .ok j) :
    cut ≤ j := by
  obtain ⟨a, ha, h⟩ := bind_ok h
  have h1 := skipWhile_le ha
  obtain ⟨nowdoc, -, h⟩ := bind_ok h
  cases nowdoc with
  | true =>
    obtain ⟨⟨label, b⟩, hb, h⟩ := bind_ok h
    have h2 := heredocLabel_le hb
    obtain ⟨closed, -, h⟩ := bind_ok h
    refine heredocEnd_past hlen ?_ hline h
    split <;> omega
  | false =>
    obtain ⟨⟨label, b⟩, hb, h⟩ := bind_ok h
    have h2 := heredocLabel_le hb
    exact heredocEnd_past hlen (by omega) hline h

theorem getElem?_cut {k : ℕ} (hk : k < cut) : (src.take cut)[k]? = src[k]? := by
  rw [List.getElem?_take, if_pos hk]

theorem byteAt_cut {k : ℕ} (hk : k < cut) : byteAt (src.take cut) k = byteAt src k := by
  rw [byteAt, byteAt, getElem?_cut hk]

/-- A word with no newline in it does not reach over one. -/
theorem isPrefixOf_cut {word : List UInt8} (hword : newline ∉ word)
    (hcut : src[cut]? = some newline) {i : ℕ} (hi : i < cut) :
    word.isPrefixOf ((src.take cut).drop i) = word.isPrefixOf (src.drop i) ∧
      (word.isPrefixOf (src.drop i) = true → i + word.length ≤ cut) := by
  have hlen : word.isPrefixOf (src.drop i) = true → i + word.length ≤ cut := by
    intro h
    obtain ⟨rest, hrest⟩ := List.isPrefixOf_iff_prefix.mp h
    by_contra hlt
    have hget : (word ++ rest)[cut - i]? = some newline := by
      rw [hrest, List.getElem?_drop, show i + (cut - i) = cut by omega, hcut]
    rw [List.getElem?_append_left (by omega)] at hget
    exact hword (List.mem_of_getElem? hget)
  refine ⟨?_, hlen⟩
  rw [List.drop_take, Bool.eq_iff_iff, List.isPrefixOf_iff_prefix, List.isPrefixOf_iff_prefix]
  constructor
  · exact fun h => h.trans (List.take_prefix _ _)
  · intro h
    have hle := hlen (List.isPrefixOf_iff_prefix.mpr h)
    exact List.prefix_take_iff.mpr ⟨h, by omega⟩

theorem wordAt_cut {word : List UInt8} (hword : newline ∉ word) (hcut : src[cut]? = some newline)
    {i : ℕ} (hi : i < cut) : wordAt (src.take cut) word i = wordAt src word i := by
  obtain ⟨hstarts, hlen⟩ := isPrefixOf_cut hword hcut hi
  unfold wordAt
  rw [hstarts]
  cases hp : word.isPrefixOf (src.drop i) with
  | false => simp
  | true =>
    have hbefore : (src.take cut)[i - 1]? = src[i - 1]? := getElem?_cut (by omega)
    have hafter : ((src.take cut)[i + word.length]?).any isIdentByte =
        (src[i + word.length]?).any isIdentByte := by
      have hle := hlen hp
      by_cases hlt : i + word.length < cut
      · rw [getElem?_cut hlt]
      · rw [show i + word.length = cut by omega, hcut, List.getElem?_take, if_neg (lt_irrefl cut)]
        rfl
    rw [hbefore, hafter]

/-- The byte after the one at `i`, in the file and in the file cut off. -/
theorem nextByte_cut (hcut : src[cut]? = some newline) {i : ℕ} (hi : i < cut) :
    ∃ n n', nextByte src i = .ok n ∧ nextByte (src.take cut) i = .ok n' ∧
      ((n = n' ∧ i + 1 < cut) ∨ (n = newline ∧ n' = 0 ∧ i + 1 = cut)) := by
  have hlen := (List.getElem?_eq_some_iff.mp hcut).1
  have htake : (src.take cut).length = cut := by
    rw [List.length_take]
    omega
  unfold nextByte
  rw [if_pos (by omega), htake]
  by_cases hlast : i + 1 < cut
  · rw [if_pos hlast, byteAt_cut hlast, byteAt_ok (by omega)]
    exact ⟨_, _, rfl, rfl, .inl ⟨rfl, hlast⟩⟩
  · have hend : i + 1 = cut := by omega
    rw [if_neg hlast, hend, byteAt, hcut]
    exact ⟨_, _, rfl, rfl, .inr ⟨rfl, rfl, rfl⟩⟩

theorem heredocOpens_cut (hcut : src[cut]? = some newline) (i : ℕ) (c n n' : UInt8)
    (hn : (n = n' ∧ i + 1 < cut) ∨ (n = newline ∧ n' = 0 ∧ i + 1 = cut)) :
    heredocOpens (src.take cut) i c n' = heredocOpens src i c n := by
  have hlen := (List.getElem?_eq_some_iff.mp hcut).1
  have htake : (src.take cut).length = cut := by
    rw [List.length_take]
    omega
  unfold heredocOpens
  rw [htake]
  obtain ⟨rfl, hlt⟩ | ⟨rfl, rfl, hend⟩ := hn
  · by_cases hlast : i + 2 < cut
    · rw [byteAt_cut hlast]
      simp [hlast, show i + 2 < src.length by omega]
    · have htwo : i + 2 = cut := by omega
      rw [if_neg (by omega), htwo, byteAt, hcut]
      split_ifs <;> rfl
  · rw [if_neg (fun h => absurd h.2.1 (by decide)), if_neg (fun h => absurd h.2.1 (by decide))]

theorem keywordStep_cut {word : List UInt8} (hne : word ≠ []) (hword : newline ∉ word)
    (hcut : src[cut]? = some newline)
    (hline : ∀ k, lo ≤ k → k < cut → src[k]? ≠ some newline) {i : ℕ} (hlo : lo ≤ i)
    (hi : i < cut) (c n n' : UInt8) (acc : Unit)
    (hn : (n = n' ∧ i + 1 < cut) ∨ (n = newline ∧ n' = 0 ∧ i + 1 = cut)) :
    Alike cut (keywordStep src word i c n acc) (keywordStep (src.take cut) word i c n' acc) := by
  have hlen := (List.getElem?_eq_some_iff.mp hcut).1
  obtain ⟨heredoc, hh⟩ := heredocOpens_total src i c n
  rw [keywordStep, keywordStep, heredocOpens_cut hcut i c n n' hn, hh, ok_bind, ok_bind]
  cases heredoc with
  | true =>
    obtain ⟨j, hj⟩ := heredocSkip_total src i
    obtain ⟨j', hj'⟩ := heredocSkip_total (src.take cut) i
    have hpast := heredocSkip_past hlen.le (fun k hk hkc => hline k (hlo.trans hk) hkc) hj
    have htake : cut ≤ (src.take cut).length := by
      rw [List.length_take]
      omega
    have hpast' : cut ≤ j' := by
      refine heredocSkip_past htake (fun k hk hkc => ?_) hj'
      rw [getElem?_cut hkc]
      exact hline k (hlo.trans hk) hkc
    rw [if_pos rfl, if_pos rfl, hj, hj']
    exact .inr ⟨_, _, _, _, rfl, rfl, by omega, by omega⟩
  | false =>
    rw [if_neg Bool.false_ne_true, if_neg Bool.false_ne_true, keywordAt_eq _ hne,
      keywordAt_eq _ hne, wordAt_cut hword hcut hi]
    exact .inl rfl

theorem lexByte_cut {σ : Type} {code code' : CodeStep σ} {i : ℕ} {c n n' : UInt8} {acc : σ}
    (hcode : Alike cut (code i c n acc) (code' i c n' acc))
    (hn : (n = n' ∧ i + 1 < cut) ∨ (n = newline ∧ n' = 0 ∧ i + 1 = cut)) (st : ScanState) :
    Alike cut (lexByte code i c n st acc) (lexByte code' i c n' st acc) := by
  unfold lexByte
  obtain ⟨rfl, -⟩ | ⟨rfl, rfl, hend⟩ := hn
  · cases st <;> dsimp only <;> split_ifs <;> first | exact .inl rfl | exact hcode
  · -- neither the newline nor the NUL in its place is a byte that a pair ends in
    have hslash : ∀ b : UInt8, b = newline ∨ b = 0 → b ≠ slash ∧ b ≠ asterisk ∧ b ≠ lbracket := by
      rintro b (rfl | rfl) <;> decide
    obtain ⟨h1, h2, h3⟩ := hslash newline (.inl rfl)
    obtain ⟨h4, h5, h6⟩ := hslash 0 (.inr rfl)
    cases st <;> simp only [h1, h2, h3, h4, h5, h6, ne_eq, not_true_eq_false, not_false_eq_true,
      and_true, and_false, if_false]
    case blockComment => exact .inl rfl
    all_goals
      split_ifs <;> first
        | exact .inl rfl
        | exact hcode
        | exact .inr ⟨_, _, _, _, rfl, rfl, by omega, by omega⟩

theorem lexStep_cut {word : List UInt8} (hne : word ≠ []) (hword : newline ∉ word)
    (hcut : src[cut]? = some newline)
    (hline : ∀ k, lo ≤ k → k < cut → src[k]? ≠ some newline) (i : ℕ) (s : ScanState × Unit)
    (hlo : lo ≤ i) (hi : i < cut) :
    Alike cut (lexStep src (keywordStep src word) i s)
      (lexStep (src.take cut) (keywordStep (src.take cut) word) i s) := by
  have hlen := (List.getElem?_eq_some_iff.mp hcut).1
  obtain ⟨n, n', hn, hn', hnext⟩ := nextByte_cut hcut hi
  have hcode := keywordStep_cut hne hword hcut hline hlo hi src[i] n n' s.2 hnext
  rw [lexStep, lexStep, byteAt_cut hi, byteAt_ok (by omega), ok_bind, ok_bind, hn, hn', ok_bind,
    ok_bind]
  exact lexByte_cut hcode hnext s.1

theorem scanFindKeyword_some {start : ℕ} {word : List UInt8} {f : ℕ} :
    scanFindKeyword src start word = .ok (some f) ↔
      scanFrom Fault.outOfFuel src.length (lexStep src (keywordStep src word)) start
        (.normal, ()) = .ok (.found f) := by
  unfold scanFindKeyword scanCode
  constructor
  · intro h
    obtain ⟨x, hx, hf⟩ := map_ok h
    cases x with
    | found r =>
      cases hf
      exact hx
    | ended s i => cases hf
  · intro h
    rw [h]
    rfl

/-- What the scan finds before the newline at `cut` does not depend on what follows. -/
theorem scanFindKeyword_cut {word : List UInt8} (hne : word ≠ []) (hword : newline ∉ word)
    (hcut : src[cut]? = some newline)
    (hline : ∀ k, lo ≤ k → k < cut → src[k]? ≠ some newline) {f : ℕ} (hf : f < cut) :
    scanFindKeyword src lo word = .ok (some f) ↔
      scanFindKeyword (src.take cut) lo word = .ok (some f) := by
  have hlen := (List.getElem?_eq_some_iff.mp hcut).1
  have htake : (src.take cut).length = cut := by
    rw [List.length_take]
    omega
  have hstop : ∀ i s r, lexStep src (keywordStep src word) i s = .ok (.stop r) → i ≤ r := by
    intro i s r hs
    obtain ⟨c, -, hs⟩ := bind_ok hs
    obtain ⟨n, -, hs⟩ := bind_ok hs
    have hs := lexByte_stop hs
    obtain ⟨heredoc, -, hs⟩ := bind_ok hs
    cases heredoc with
    | true =>
      obtain ⟨j, -, hs⟩ := bind_ok hs
      cases hs
    | false =>
      obtain ⟨found, -, hs⟩ := bind_ok hs
      cases found <;> cases hs
      exact le_rfl
  rw [scanFindKeyword_some, scanFindKeyword_some, htake]
  exact scanFrom_cut id (lexStep_forward (keywordStep_forward src word))
    (lexStep_forward (keywordStep_forward (src.take cut) word)) hlen.le
    (fun i s hlo hi => lexStep_cut hne hword hcut hline i s hlo hi) hstop le_rfl hf

end Cut

/-! ## The line of the keyword -/

section Line
variable (readFile : List UInt8 → Option (List UInt8)) (name src : List UInt8) (L : ℤ)

/-- A keyword that an extraction from line `L` is anchored at stands on that line. -/
def AnchoredOnLine : Prop :=
  ∀ lineOff fnOff t, lineStart src L = some lineOff →
    scanFindKeyword src lineOff functionKeyword = .ok (some fnOff) →
    extractClosureText readFile (some name) L = .ok (.text t) →
    newline ∉ slice src lineOff fnOff

/-- Line `L`, with nothing after it, has a keyword for the scan to find. -/
def KeywordOnLine : Prop :=
  ∃ lineOff f, lineStart src L = some lineOff ∧
    scanFindKeyword (src.take (lineEnd src lineOff)) lineOff functionKeyword = .ok (some f)

variable {readFile name src L}

theorem lineEnd_spec {o : ℕ} (ho : o ≤ src.length) :
    lineEnd src o ≤ src.length ∧
      (∀ k, o ≤ k → k < lineEnd src o → src[k]? ≠ some newline) ∧
      (lineEnd src o < src.length → src[lineEnd src o]? = some newline) := by
  have hlen : (src.drop o).findIdx (· == newline) ≤ (src.drop o).length := List.findIdx_le_length
  rw [List.length_drop] at hlen
  unfold lineEnd
  refine ⟨by omega, fun k hk hke hc => ?_, fun hlt => ?_⟩
  · have hlt : k - o < (src.drop o).findIdx (· == newline) := by omega
    have hnot := List.not_of_lt_findIdx hlt
    rw [List.getElem_drop] at hnot
    have hkk : o + (k - o) = k := by omega
    rw [List.getElem?_eq_getElem (by omega), Option.some.injEq] at hc
    simp [hkk, hc] at hnot
  · have hlast : (src.drop o).findIdx (· == newline) < (src.drop o).length := by
      rw [List.length_drop]
      omega
    have hfound := List.findIdx_getElem (w := hlast)
    rw [List.getElem_drop] at hfound
    rw [List.getElem?_eq_getElem hlt]
    simpa using hfound

theorem newline_not_mem_slice {o k : ℕ} (hline : ∀ j, o ≤ j → j < k → src[j]? ≠ some newline) :
    newline ∉ slice src o k := by
  intro hmem
  obtain ⟨j, hoj, hjk, hj⟩ := slice_mem hmem
  exact hline j hoj hjk hj

/-- An extraction is anchored on the line it was asked for exactly when that line has a keyword. -/
theorem anchoredOnLine_iff (hname : refused (some name) = false) (hread : readFile name = some src)
    {t : List UInt8} (ht : extractClosureText readFile (some name) L = .ok (.text t)) :
    AnchoredOnLine readFile name src L ↔ KeywordOnLine src L := by
  have hslice := ht
  rw [extractClosureText_read readFile name hname hread] at hslice
  obtain ⟨o, -⟩ := offsets_of_extractSlice hslice
  have hl := o.lineStart_eq
  have hf := o.keyword
  generalize o.lineOff = lineOff at hl hf
  generalize o.fnOff = k at hf
  obtain ⟨hle, hlt, hword⟩ := scanFindKeyword_found (by decide) hf
  obtain ⟨hend, hline, hnewline⟩ := lineEnd_spec (hle.trans hlt.le)
  have hanchored : AnchoredOnLine readFile name src L ↔ newline ∉ slice src lineOff k := by
    constructor
    · exact fun h => h lineOff k t hl hf ht
    · intro h lineOff' fnOff t' hl' hf' _
      cases hl.symm.trans hl'
      cases hf.symm.trans hf'
      exact h
  have hkeyword : KeywordOnLine src L ↔ ∃ f, scanFindKeyword (src.take (lineEnd src lineOff))
      lineOff functionKeyword = .ok (some f) := by
    constructor
    · rintro ⟨lineOff', f, hl', hf'⟩
      cases hl.symm.trans hl'
      exact ⟨f, hf'⟩
    · exact fun ⟨f, hf'⟩ => ⟨lineOff, f, hl, hf'⟩
  rw [hanchored, hkeyword]
  by_cases hlast : lineEnd src lineOff < src.length
  · have hcut := hnewline hlast
    have hsame : ∀ f, f < lineEnd src lineOff →
        (scanFindKeyword src lineOff functionKeyword = .ok (some f) ↔
          scanFindKeyword (src.take (lineEnd src lineOff)) lineOff functionKeyword =
            .ok (some f)) :=
      fun f hf => scanFindKeyword_cut functionKeyword_ne_nil (by decide) hcut hline hf
    constructor
    · intro hnot
      have hbefore : k < lineEnd src lineOff := by
        by_contra hge
        have hne : k ≠ lineEnd src lineOff := by
          intro heq
          have hhead := wordAt_head hword
          rw [heq, hcut] at hhead
          cases hhead
        apply hnot
        have hfirst : lineOff ≤ lineEnd src lineOff := Nat.le_add_right _ _
        apply List.mem_of_getElem? (i := lineEnd src lineOff - lineOff)
        rw [slice_getElem? (by omega), show lineOff + (lineEnd src lineOff - lineOff) =
          lineEnd src lineOff by omega, hcut]
      exact ⟨k, (hsame _ hbefore).mp hf⟩
    · rintro ⟨f, hf'⟩
      have hbefore := (scanFindKeyword_found (by decide) hf').2.1
      rw [List.length_take] at hbefore
      have hfull := (hsame f (by omega)).mpr hf'
      cases hf.symm.trans hfull
      exact newline_not_mem_slice fun j hj hjk => hline j hj (by omega)
  · have htake : src.take (lineEnd src lineOff) = src := List.take_of_length_le (by omega)
    rw [htake]
    exact iff_of_true (newline_not_mem_slice fun j hj hjk => hline j hj (by omega)) ⟨_, hf⟩

end Line

theorem anchoredOnLine_iff_mixed : AnchoredOnLine mixedFile phpName (bytesOf mixed) 2 :=
  (anchoredOnLine_iff (by decide +kernel) (by decide +kernel)
    (t := slice (bytesOf mixed) 28 58) (by decide +kernel)).mpr
      ⟨24, 28, by decide +kernel, by decide +kernel⟩

/-! ### An arrow function before a function -/

/-- `$f=fn()=>1;`, and on the next line `function g()\x7b\x7d`. -/
def arrowFirst : List UInt8 :=
  ascii ['<', '?', 'p', 'h', 'p', ' ', '$', 'f', '=', 'f', 'n', '(', ')', '=', '>', '1', ';'] ++
    newline :: functionKeyword ++ ascii [' ', 'g', '(', ')', '\x7b', '\x7d']

def arrowFirstFile (name : List UInt8) : Option (List UInt8) :=
  if name = phpName then some arrowFirst else none

/-- For the arrow function on line 1 the text of `g` is returned. -/
theorem not_anchoredOnLine_arrow :
    ¬ AnchoredOnLine arrowFirstFile phpName arrowFirst 1 ∧
      extractClosureText arrowFirstFile (some phpName) 1 =
        .ok (.text (functionKeyword ++ ascii [' ', 'g', '(', ')', '\x7b', '\x7d'])) := by
  have htext : extractClosureText arrowFirstFile (some phpName) 1 =
      .ok (.text (functionKeyword ++ ascii [' ', 'g', '(', ')', '\x7b', '\x7d'])) := by
    decide +kernel
  refine ⟨fun h => ?_, htext⟩
  exact absurd (h 0 18 _ rfl (by decide +kernel) htext) (by decide +kernel)

end Parallax.Closure
