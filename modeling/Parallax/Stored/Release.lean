import Parallax.Stored.Build

/-! `value_free` on the heap: of a tree, it gives back the blocks of the tree, each once, and it
touches no other. -/
namespace Parallax.Stored
open Memory Separation Separation.Assertion
set_option autoImplicit false
set_option maxHeartbeats 250000

/-! ## free_kv_array and value_free -/

section Code

/-- The loop of `free_kv_array`, from `items[i]` on, over as many rows as are left. -/
def freeRows (release : Option ℕ → Code Unit) (items : Option ℕ) : ℕ → ℕ → Code Unit
  | _, 0 => return ()
  | i, left + 1 => do
    let kv ← readRow items i
    free kv.skey
    release kv.val
    freeRows release items (i + 1) left

def freeKvArray (release : Option ℕ → Code Unit) (b : Items) : Code Unit :=
  if b.items.isNone then return ()
  else do
    freeRows release b.items 0 b.n
    free b.items

/-- The `switch` of `value_free`. -/
def freeFields (release : Option ℕ → Code Unit) : Node → Code Unit
  | .null => return ()
  | .bool _ => return ()
  | .long _ => return ()
  | .double _ => return ()
  | .str p _ => free p
  | .arr b => freeKvArray release b
  | .obj cls _ b => do
    free cls
    freeKvArray release b
  | .err cls msg _ trace => do
    free cls
    free msg
    free trace

/-- `value_free`, with fuel for the calls in each other. -/
def freeValue : ℕ → Option ℕ → Code Unit
  | _, none => return ()
  | 0, some _ => attempt (.error .outOfFuel)
  | fuel + 1, some v => do
    let node ← readNode (some v)
    freeFields (freeValue fuel) node
    free (some v)

/-- No call is deeper in others than there are blocks. -/
def valueFree (v : Option ℕ) : Code Unit := do
  let blocks ← liveBlocks
  freeValue blocks v

end Code

/-! ## Everything of a tree is given back -/

section
variable {β : Type} {F : Assertion Block} {Q : β → Assertion Block} {f : Unit → Code β}

theorem free_chars_bind {p : Ptr} {q : Option ℕ} (h : Triple F (f ()) Q) :
    Triple (chars p q * F) (free q >>= f) Q := by
  cases p with
  | none =>
    cases q with
    | none =>
      refine Triple.perm F (one_mul F) ?_
      exact h
    | some a => exact Triple.bot_mul
  | some bs =>
    cases q with
    | none => exact Triple.bot_mul
    | some a => exact Triple.free_bind h

theorem free_chars {p : Ptr} {q : Option ℕ} : Triple (chars p q) (free q) fun _ => 1 := by
  have hend : Triple (1 : Assertion Block) (pure ()) fun _ => 1 := Triple.pure le_rfl
  have hfree := free_chars_bind (p := p) (q := q) hend
  rwa [mul_one, bind_pure] at hfree

end

/-- The function gives back the trees behind these entries. -/
def Releases (release : Option ℕ → Code Unit) (entries : List Entry) : Prop :=
  ∀ kv ∈ entries, ∀ q, Triple (child kv.val q) (release q) fun _ => 1

theorem freeRows_spec {release : Option ℕ → Code Unit} {all : List Row} {cap : ℕ} {q : Option ℕ}
    {entries : List Entry} (hrel : Releases release entries) {i : ℕ} :
    Triple (itemBlock all cap q * entriesAt entries (all.drop i))
      (freeRows release q i entries.length) fun _ => itemBlock all cap q := by
  induction entries generalizing i with
  | nil =>
    refine Triple.of_fact (p := all.drop i = []) ?_ fun hnil => ?_
    · rintro _ ⟨_, u, -, -, -, hu⟩
      exact List.length_eq_zero_iff.mp (entriesAt_length u hu)
    rw [hnil, entriesAt_nil, mul_one]
    exact Triple.pure le_rfl
  | cons kv entries ih =>
    obtain ⟨hkv, hrest⟩ := List.forall_mem_cons.mp hrel
    refine Triple.perm _ (mul_comm _ _) (rows_cons fun row hrow => ?_)
    rw [entriesAt_drop hrow, entryAt, mul_assoc]
    refine Triple.iSup_mul fun _ => ?_
    refine Triple.perm (itemBlock all cap q * (chars kv.skey row.skey * (child kv.val row.val *
      entriesAt entries (all.drop (i + 1))))) (by ac_rfl) (readRow_bind hrow ?_)
    refine Triple.perm (chars kv.skey row.skey * (child kv.val row.val *
      (itemBlock all cap q * entriesAt entries (all.drop (i + 1))))) (by ac_rfl) ?_
    refine free_chars_bind (Triple.seq (hkv row.val) rfl fun _ => ?_)
    rw [one_mul]
    exact ih hrest

theorem freeKvArray_spec {release : Option ℕ → Code Unit} {v : KvVec Entry} {b : Items}
    (hrel : Releases release v.entries) :
    Triple (stored v b) (freeKvArray release b) fun _ => 1 := by
  refine Triple.iSup fun rows => Triple.iSup fun hv => ?_
  have hn : b.n = v.entries.length := hv.2.1
  obtain ⟨items, n, cap⟩ := b
  dsimp only at hn
  subst hn
  cases items with
  | none =>
    refine Triple.iSup_mul fun hnil => ?_
    rw [hnil.2, one_mul]
    refine Triple.of_fact (p := v.entries = []) ?_ fun hentries => ?_
    · intro s hs
      exact List.length_eq_zero_iff.mp (entriesAt_length s hs).symm
    rw [hentries, entriesAt_nil]
    exact Triple.pure le_rfl
  | some a =>
    refine Triple.bind (freeRows_spec hrel (i := 0)) fun _ => ?_
    exact Triple.iSup fun cells => Triple.iSup fun _ => Triple.free

theorem nodes_le_items {entries : List Entry} {kv : Entry} (h : kv ∈ entries) :
    nodesPtr kv.val ≤ nodesItems entries := by
  induction h with
  | head entries =>
    rw [nodesItems]
    exact Nat.le_add_right _ _
  | tail kv' _ ih =>
    rw [nodesItems]
    exact ih.trans (Nat.le_add_left _ _)

theorem nodes_pos (v : Value) : 0 < v.nodes := by
  cases v with
  | arr items => exact Nat.succ_pos _
  | obj cls clen props => exact Nat.succ_pos _
  | _ => exact Nat.one_pos

theorem freeFields_spec {fuel : ℕ} (hfree : ∀ c q, nodesPtr c ≤ fuel →
    Triple (child c q) (freeValue fuel q) fun _ => 1) {v : Value} (hv : v.nodes ≤ fuel + 1) {a : ℕ} :
    Triple (tree v a) (do
      let node ← readNode (some a)
      freeFields (freeValue fuel) node
      free (some a)) fun _ => 1 := by
  have hplain {node : Node} (h : freeFields (freeValue fuel) node = pure ()) :
      Triple (pointsTo a (.node node)) (do
        let node ← readNode (some a)
        freeFields (freeValue fuel) node
        free (some a)) fun _ => 1 := by
    refine Triple.perm (pointsTo a (.node node) * 1) (mul_one _).symm (readNode_bind ?_)
    rw [h, mul_one]
    exact Triple.free
  have hlast {x : Code Unit} {P : Assertion Block} {node : Node} (hx : Triple P x fun _ => 1) :
      Triple (pointsTo a (.node node) * P) (x >>= fun _ => free (some a)) fun _ => 1 := by
    refine Triple.seq hx (mul_comm _ _) fun _ => ?_
    rw [one_mul]
    exact Triple.free
  have hblock {items : KvVec Entry} (hn : nodesItems items.entries + 1 ≤ fuel + 1) (b : Items) :
      Triple (stored items b) (freeKvArray (freeValue fuel) b) fun _ => 1 :=
    freeKvArray_spec fun kv hkv q =>
      hfree kv.val q ((nodes_le_items hkv).trans (Nat.le_of_succ_le_succ hn))
  cases v with
  | null => exact hplain rfl
  | bool b => exact hplain rfl
  | long i => exact hplain rfl
  | double d => exact hplain rfl
  | str p len =>
    rw [tree_str]
    exact Triple.iSup fun q => readNode_bind (hlast free_chars)
  | arr items =>
    rw [tree_arr]
    exact Triple.iSup fun b => readNode_bind (hlast (hblock hv b))
  | obj cls clen props =>
    rw [tree_obj]
    refine Triple.iSup fun c => Triple.iSup fun b => readNode_bind (hlast ?_)
    exact free_chars_bind (hblock hv b)
  | err cls msg code trace =>
    rw [tree_err]
    refine Triple.iSup fun c => Triple.iSup fun m => Triple.iSup fun t => readNode_bind (hlast ?_)
    exact free_chars_bind (free_chars_bind free_chars)

theorem freeValue_spec (fuel : ℕ) (c : Option Value) (q : Option ℕ) (h : nodesPtr c ≤ fuel) :
    Triple (child c q) (freeValue fuel q) fun _ => 1 := by
  induction fuel generalizing c q with
  | zero =>
    cases c with
    | none =>
      cases q with
      | none => exact Triple.pure le_rfl
      | some a => exact Triple.bot
    | some v => exact absurd ((nodes_pos v).trans_le h) (lt_irrefl 0)
  | succ fuel ih =>
    cases c with
    | none =>
      cases q with
      | none => exact Triple.pure le_rfl
      | some a => exact Triple.bot
    | some v =>
      cases q with
      | none => exact Triple.bot
      | some a => exact freeFields_spec ih h

theorem valueFree_spec (c : Option Value) (q : Option ℕ) :
    Triple (child c q) (valueFree q) fun _ => 1 :=
  Triple.liveBlocks_bind (child_weighs c q) fun blocks h => freeValue_spec blocks c q h

/-- A tree on blocks of its own is given back, and nothing else. -/
theorem valueFree_gives_back {v : Value} {a : ℕ} {own rest : Separation.Heap Block}
    (hown : tree v a own) (hd : own.Disjoint rest) :
    valueFree (some a) (own ∪ rest) = .ok ((), rest) := by
  obtain ⟨_, hfree⟩ := (valueFree_spec (some v) (some a)).releases hown hd
  exact hfree

end Parallax.Stored
