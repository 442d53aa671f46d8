import VolarIR.Opt.StoreForward

/-!
# Store-to-load forwarding over a block

Without a stale hit the rewritten block makes the same run; at the first stale hit the
read and the var it is redirected to differ, and a terminator that returns the read shows
it. A block without action stores never has a stale hit.
-/
namespace VolarIR.Opt
open Boolar

variable {P : Type}

section
variable {base : ℕ} {ks : List Stmt} {st : ForwardState} {f : Frame} {written : Written}

/-- No read of a cell that the block has written meets one that has changed since. -/
def WritesStand (world : Externals) : Frame → Written → List Stmt → Prop
  | _, _, [] => True
  | f, written, s :: rest =>
      (∀ storage lane addr b, s = .storageRead storage lane addr →
        written ((storage, lane), addrBits f.vals addr) = some b →
        f.st.storage.read ((storage, lane), addrBits f.vals addr) = b) ∧
      WritesStand world (stepStmt world f s) (writtenStep f.vals written s) rest

theorem forwardStmtsFrom_cons (st : ForwardState) (rv : ℕ) (node : Node Stmt P)
    (rest : List (Node Stmt P)) :
    forwardStmtsFrom st rv (node :: rest) =
      ({ node with kind := (forwardStmt st rv node.kind).1 } ::
        (forwardStmtsFrom (forwardStmt st rv node.kind).2 (rv + 1) rest).1,
        (forwardStmtsFrom (forwardStmt st rv node.kind).2 (rv + 1) rest).2) := rfl

theorem definedBy_next {s : Stmt} {done rest : List Stmt} (hks : ks = done ++ s :: rest) :
    definedBy base ks (base + done.length) = some s := by
  rw [definedBy_add, hks]
  simp

/-- At a statement of the block: its operands are defined, it is rewritten by the aliases, and
the state after it has its shape for the next one. -/
theorem Forwarded.next (h : Forwarded base ks f.vals.length st) (hd : Defined base ks)
    (world : Externals) {s : Stmt} {done rest : List Stmt} (hks : ks = done ++ s :: rest)
    (hn : f.vals.length = base + done.length) :
    (∀ v ∈ s.operands, v < f.vals.length) ∧
      (forwardStmt st f.vals.length s).1 = s.mapVars (canonAlias st.aliasMap) ∧
      Forwarded base ks (stepStmt world f s).vals.length (forwardStmt st f.vals.length s).2 := by
  have hs : definedBy base ks f.vals.length = some s := hn ▸ definedBy_next hks
  have hops := operands_lt_of_definedBy hd hs
  rw [stepStmt_length]
  obtain ⟨hnext, hkind, -⟩ := h.step hs hops
  exact ⟨hops, hkind, hnext⟩

/-- The sweep keeps the shape of its state, and the alias of every var passed. -/
theorem forwardStmtsFrom_forwarded (hd : Defined base ks) (done : List Stmt)
    (stmts : List (Node Stmt P)) {n : ℕ} (hks : ks = done ++ stmts.map Node.kind)
    (hn : n = base + done.length) (h : Forwarded base ks n st) :
    Forwarded base ks (base + ks.length) (forwardStmtsFrom st n stmts).2 ∧
      ∀ u < n, canonAlias (forwardStmtsFrom st n stmts).2.aliasMap u =
        canonAlias st.aliasMap u := by
  induction stmts generalizing done st n with
  | nil =>
      subst hn
      rw [hks, List.map_nil, List.append_nil] at h ⊢
      exact ⟨h, fun _ _ => rfl⟩
  | cons node rest ih =>
      have hs : definedBy base ks n = some node.kind := hn ▸ definedBy_next hks
      obtain ⟨hnext, -, hkeep⟩ := h.step hs (operands_lt_of_definedBy hd hs)
      obtain ⟨hend, hrest⟩ := ih (done ++ [node.kind]) (n := n + 1) (by simp [hks])
        (by simp [hn, Nat.add_assoc]) hnext
      exact ⟨hend, fun u hu => (hrest u (by omega)).trans (hkeep u hu)⟩

/-- Without a stale hit the rewritten statements reach the same frame, and every alias
has the bit of its var there. -/
theorem forwardStmtsFrom_run (hd : Defined base ks) (world : Externals) (done : List Stmt)
    (stmts : List (Node Stmt P)) (hks : ks = done ++ stmts.map Node.kind)
    (hn : f.vals.length = base + done.length) (hp : ∀ s ∈ ks, ProjectsNoRead base ks s)
    (hf : Forwarded base ks f.vals.length st) (h : Agrees st f.vals written)
    (hfresh : NoStaleHit world st f written (stmts.map Node.kind)) :
    evalStmts world f ((forwardStmtsFrom st f.vals.length stmts).1.map Node.kind) =
        evalStmts world f (stmts.map Node.kind) ∧
      ∀ v, (look (evalStmts world f (stmts.map Node.kind)).vals
          (canonAlias (forwardStmtsFrom st f.vals.length stmts).2.aliasMap v)).bit =
        (look (evalStmts world f (stmts.map Node.kind)).vals v).bit := by
  induction stmts generalizing done st f written with
  | nil => exact ⟨rfl, h.canon_bit⟩
  | cons node rest ih =>
      have hpn : ProjectsNoRead base ks node.kind := hp _ (by rw [hks]; simp)
      obtain ⟨hops, hkind, hnext⟩ := hf.next hd world hks hn
      have hagree := h.step hf world hops hpn hfresh.1
      have hrest := ih (done ++ [node.kind]) (f := stepStmt world f node.kind)
        (by simp [hks]) (by simp [hn, Nat.add_assoc]) hnext hagree hfresh.2
      rw [stepStmt_length] at hrest
      simp only [forwardStmtsFrom_cons, List.map_cons, evalStmts_cons, hkind,
        h.step_eq hf world hpn]
      exact hrest

/-- At the first stale hit the read and the var it is sent to differ. -/
theorem forwardStmtsFrom_stale (hd : Defined base ks) (world : Externals) (done : List Stmt)
    (stmts : List (Node Stmt P)) (hks : ks = done ++ stmts.map Node.kind)
    (hn : f.vals.length = base + done.length) (hp : ∀ s ∈ ks, ProjectsNoRead base ks s)
    (hf : Forwarded base ks f.vals.length st) (h : Agrees st f.vals written)
    (hstale : ¬ NoStaleHit world st f written (stmts.map Node.kind)) :
    ∃ v < base + ks.length,
      (look (evalStmts world f ((forwardStmtsFrom st f.vals.length stmts).1.map Node.kind)).vals
          (canonAlias (forwardStmtsFrom st f.vals.length stmts).2.aliasMap v)).bit ≠
        (look (evalStmts world f (stmts.map Node.kind)).vals v).bit := by
  induction stmts generalizing done st f written with
  | nil => exact absurd trivial hstale
  | cons node rest ih =>
      have hpn : ProjectsNoRead base ks node.kind := hp _ (by rw [hks]; simp)
      obtain ⟨hops, hkind, hnext⟩ := hf.next hd world hks hn
      have hlen : (stepStmt world f node.kind).vals.length = f.vals.length + 1 :=
        stepStmt_length ..
      simp only [forwardStmtsFrom_cons, List.map_cons, evalStmts_cons, hkind,
        h.step_eq hf world hpn]
      by_cases hhere : FreshHit st f written node.kind
      · -- the stale hit comes later
        have hrest := ih (done ++ [node.kind]) (f := stepStmt world f node.kind)
          (by simp [hks]) (by simp [hn, Nat.add_assoc]) hnext (h.step hf world hops hpn hhere)
          fun hfresh => hstale ⟨hhere, hfresh⟩
        rw [hlen] at hrest
        exact hrest
      · simp only [FreshHit, not_forall] at hhere
        obtain ⟨storage, lane, addr, src, hread, hhit, hne⟩ := hhere
        have hmem := mem_of_lookup_eq_some hhit
        obtain ⟨hsrc, hnone⟩ := hf.src _ hmem
        have hcanon : canonAlias (forwardStmt st f.vals.length node.kind).2.aliasMap
            f.vals.length = src := by
          have hidem : (addr.map (canonAlias st.aliasMap)).map (canonAlias st.aliasMap) =
              addr.map (canonAlias st.aliasMap) := by
            simp [hf.oneHop.idem]
          have hst : (forwardStmt st f.vals.length node.kind).2.aliasMap =
              (f.vals.length, src) :: st.aliasMap := by
            rw [hread]
            simp only [forwardStmt, applyAliasesStmt_eq, BIrStmt.mapVars, hidem, hhit]
          rw [hst, hf.oneHop.canon_cons hnone hsrc, if_pos rfl]
        have hlast := (forwardStmtsFrom_forwarded hd (done ++ [node.kind]) rest
          (n := f.vals.length + 1) (by simp [hks]) (by simp [hn, Nat.add_assoc]) (hlen ▸ hnext)).2
        have hdone : f.vals.length < base + ks.length := by
          rw [hn, hks, List.length_append, List.length_map, List.length_cons]
          omega
        refine ⟨f.vals.length, hdone, ?_⟩
        rw [hlast _ (Nat.lt_succ_self _), hcanon, evalStmts_look (by rw [hlen]; omega),
          evalStmts_look (by rw [hlen]; omega), stepStmt_look hsrc]
        intro heq
        have hcached := h.cached _ hmem
        rw [StoreKey.cell, h.addrBits_canon] at hcached
        refine hne (hcached.trans (congrArg some (heq.trans ?_)))
        rw [hread]
        simp [stepStmt, BIrStmt.mapVars, evalStmt, addrBits, Value.bits, Function.comp_def]

/-- A read that hits the cache reads a cell that the block has written. -/
theorem noStaleHit_of_writesStand (hd : Defined base ks) (world : Externals) (done : List Stmt)
    {rest : List Stmt} (hks : ks = done ++ rest) (hn : f.vals.length = base + done.length)
    (hp : ∀ s ∈ ks, ProjectsNoRead base ks s) (hf : Forwarded base ks f.vals.length st)
    (h : Agrees st f.vals written) (hw : WritesStand world f written rest) :
    NoStaleHit world st f written rest := by
  induction rest generalizing done st f written with
  | nil => trivial
  | cons s rest ih =>
      have hmem : s ∈ ks := by rw [hks]; simp
      obtain ⟨hops, -, hnext⟩ := hf.next hd world hks hn
      have hfresh : FreshHit st f written s := by
        intro storage lane addr src hread hhit
        have hcached := h.cached _ (mem_of_lookup_eq_some hhit)
        rw [StoreKey.cell, h.addrBits_canon] at hcached
        rw [hcached, hw.1 storage lane addr _ hread hcached]
      exact ⟨hfresh, ih (done ++ [s]) (by simp [hks]) (by simp [hn, Nat.add_assoc]) hnext
        (h.step hf world hops (hp s hmem) hfresh) hw.2⟩

end

def ForwardState.start : ForwardState := ⟨[], [], [], false⟩

theorem forwarded_start (base : ℕ) (ks : List Stmt) : Forwarded base ks base .start :=
  ⟨nofun, nofun, nofun, nofun⟩

theorem agrees_start (vals : List Value) : Agrees .start vals fun _ => none :=
  ⟨nofun, nofun, nofun⟩

def outcome : Option (BlockResult × EvalState) → Option (BlockResult × StorageMap) :=
  Option.map fun r => (r.1, r.2.storage)

def forwarded (params : ℕ) (stmts : List (Node Stmt P)) (t : BIrTerminator ℕ) : BIrBlock P :=
  ⟨params, (forwardStmtsFrom .start params stmts).1,
    t.mapVars (canonAlias (forwardStmtsFrom .start params stmts).2.aliasMap)⟩

theorem forwardSingle_eq {params : ℕ} {stmts : List (Node Stmt P)}
    (hids : params + stmts.length ≤ u32Max + 1) (t : BIrTerminator ℕ) :
    ∃ changed, forwardSingle ⟨params, stmts, t⟩ = some (forwarded params stmts t, changed) := by
  refine ⟨(forwardBlockWithCache ⟨params, stmts, t⟩ []).2.2, ?_⟩
  have hfit : (⟨params, stmts, t⟩ : BIrBlock P).IdsFit := hids
  rw [forwardSingle, if_pos hfit]
  simp only [forwardBlockWithCache, applyAliasesTerminator_eq, forwarded, ForwardState.start]

section
variable {params : ℕ} {stmts : List (Node Stmt P)} {world : Externals} {args : List Bool}
  {σ : EvalState}

theorem forwarded_eval (hd : Defined params (stmts.map Node.kind))
    (hp : ∀ s ∈ stmts.map Node.kind, ProjectsNoRead params (stmts.map Node.kind) s)
    (hlen : args.length = params)
    (hfresh : NoStaleHit world .start ⟨paramValues args, σ⟩ (fun _ => none)
      (stmts.map Node.kind)) (t : BIrTerminator ℕ) :
    evalBlock world (forwarded params stmts t) args σ =
      evalBlock world ⟨params, stmts, t⟩ args σ := by
  have hf : (⟨paramValues args, σ⟩ : Frame).vals.length = params := by simpa using hlen
  obtain ⟨hstmts, hbits⟩ := forwardStmtsFrom_run hd world [] stmts
    (f := ⟨paramValues args, σ⟩) rfl (by simpa using hlen) hp (by rw [hf]; exact forwarded_start ..)
    (agrees_start _) hfresh
  rw [hf] at hstmts hbits
  have hterm := evalTerminator_mapVars hbits t
  simp only [forwarded, evalBlock, hlen, if_true, BIrBlock.kinds, hstmts, hterm]

def ForwardPreserves (world : Externals) (block : BIrBlock P) (args : List Bool) (σ : EvalState) :
    Prop :=
  ∃ out changed, forwardSingle block = some (out, changed) ∧
    outcome (evalBlock world out args σ) = outcome (evalBlock world block args σ)

theorem forwardPreserves_of_noStaleHit (hd : Defined params (stmts.map Node.kind))
    (hp : ∀ s ∈ stmts.map Node.kind, ProjectsNoRead params (stmts.map Node.kind) s)
    (hlen : args.length = params) (hids : params + stmts.length ≤ u32Max + 1)
    (hfresh : NoStaleHit world .start ⟨paramValues args, σ⟩ (fun _ => none)
      (stmts.map Node.kind)) (t : BIrTerminator ℕ) :
    ForwardPreserves world ⟨params, stmts, t⟩ args σ := by
  obtain ⟨changed, hend⟩ := forwardSingle_eq hids t
  exact ⟨_, changed, hend, congrArg outcome (forwarded_eval hd hp hlen hfresh t)⟩

theorem preserves_iff_noStaleHit (hd : Defined params (stmts.map Node.kind))
    (hp : ∀ s ∈ stmts.map Node.kind, ProjectsNoRead params (stmts.map Node.kind) s)
    (hlen : args.length = params) :
    (∀ t, (∀ v ∈ t.operands, v < params + stmts.length) →
      ForwardPreserves world ⟨params, stmts, t⟩ args σ) ↔
      params + stmts.length ≤ u32Max + 1 ∧
        NoStaleHit world .start ⟨paramValues args, σ⟩ (fun _ => none) (stmts.map Node.kind) := by
  constructor
  · intro h
    have hids : params + stmts.length ≤ u32Max + 1 := by
      obtain ⟨out, changed, hout, -⟩ := h (.jmp ⟨.ret, []⟩) (by simp [BIrTerminator.operands])
      by_contra hids
      have hoverflow : ¬ (⟨params, stmts, .jmp ⟨.ret, []⟩⟩ : BIrBlock P).IdsFit := hids
      rw [forwardSingle, if_neg hoverflow] at hout
      cases hout
    refine ⟨hids, ?_⟩
    by_contra hstale
    have hf : (⟨paramValues args, σ⟩ : Frame).vals.length = params := by simpa using hlen
    obtain ⟨v, hv, hne⟩ := forwardStmtsFrom_stale hd world [] stmts
      (f := ⟨paramValues args, σ⟩) rfl (by simpa using hlen) hp
      (by rw [hf]; exact forwarded_start ..) (agrees_start _) hstale
    rw [hf] at hne
    rw [List.length_map] at hv
    obtain ⟨out, changed, hout, hret⟩ :=
      h (.jmp ⟨.ret, [v]⟩) (by simpa [BIrTerminator.operands] using hv)
    obtain ⟨changed', hend⟩ := forwardSingle_eq hids (.jmp ⟨.ret, [v]⟩)
    obtain rfl := congrArg Prod.fst (Option.some.inj (hout.symm.trans hend))
    simp only [forwarded, outcome, evalBlock, hlen, if_true, BIrTerminator.mapVars,
        BIrTarget.mapVars,
      evalTerminator, resolveTarget, BIrBlock.kinds, Option.map_some, List.map_cons, List.map_nil,
      Option.some.injEq, Prod.mk.injEq, BlockResult.ret.injEq, List.cons.injEq, and_true] at hret
    exact hne hret.1
  · rintro ⟨hids, hfresh⟩ t -
    exact forwardPreserves_of_noStaleHit hd hp hlen hids hfresh t

end

def isActionStore : Stmt → Bool
  | .actionStoreBit .. => true
  | _ => false

theorem written_step {world : Externals} {f : Frame} {written : Written} {s : Stmt}
    (hs : isActionStore s = false)
    (h : ∀ c b, written c = some b → f.st.storage.read c = b) :
    ∀ c b, writtenStep f.vals written s c = some b →
        (stepStmt world f s).st.storage.read c = b := by
  intro c b hc
  cases s with
  | actionStoreBit => cases hs
  | storageWrite storage lane src addr =>
      have hcell : (stepStmt world f (.storageWrite storage lane src addr)).st.storage.read =
          Function.update f.st.storage.read ((storage, lane), addrBits f.vals addr)
            (look f.vals src).bit := by
        simp [stepStmt, BIrStmt.mapVars, evalStmt, StorageMap.read_insert, addrBits, Value.bits,
          Function.comp_def]
      rw [hcell]
      rw [writtenStep] at hc
      by_cases heq : c = ((storage, lane), addrBits f.vals addr)
      · subst heq
        rw [Function.update_self] at hc ⊢
        exact Option.some.inj hc
      · rw [Function.update_of_ne heq] at hc ⊢
        exact h c b hc
  | actionCall name guard args fallback n =>
      simp only [stepStmt, BIrStmt.mapVars, evalStmt]
      split_ifs <;> exact h c b hc
  | _ => exact h c b hc

theorem writesStand_of_noActionStore {world : Externals} {f : Frame} {written : Written}
    {ks : List Stmt} (hno : ∀ s ∈ ks, isActionStore s = false)
    (hw : ∀ c b, written c = some b → f.st.storage.read c = b) :
    WritesStand world f written ks := by
  induction ks generalizing f written with
  | nil => trivial
  | cons s rest ih =>
      rw [List.forall_mem_cons] at hno
      exact ⟨fun _ _ _ _ _ hc => hw _ _ hc, ih hno.2 (written_step hno.1 hw)⟩

/-- Every call answers `0`. -/
def allFalse : Externals := ⟨fun _ _ _ => false, fun _ _ _ _ => false, fun _ _ _ => false⟩

/-- The first param written to a cell, what `between` does, and the cell read. -/
def writeThenRead (between : List Stmt) : List (Node Stmt Unit) :=
  ((.storageWrite ⟨0⟩ ⟨0⟩ 0 [] : Stmt) :: between ++ [(.storageRead ⟨0⟩ ⟨0⟩ [] : Stmt)]).map
    fun s => .new s ()

def storedBehind : BIrBlock Unit :=
  ⟨2, writeThenRead [.zero, .actionStoreBit "f" 3 [] 1 ⟨0⟩ ⟨0⟩ [] 0 0], .jmp ⟨.ret, [5]⟩⟩

end VolarIR.Opt
