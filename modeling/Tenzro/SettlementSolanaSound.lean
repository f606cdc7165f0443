import Tenzro.SettlementSolana

set_option autoImplicit false
set_option linter.dupNamespace false

/-!
# The settlement lock on Solana refines the machine

Each locked leg is backed by an account of its own, so no payment can touch what another leg holds.
-/
namespace Tenzro.Settlement
open Function Option
namespace Solana
open ByteCodec ProofVerifiers Outcome FixedWidth
open NativeBalance (moved le_moved moved_dest moved_source moved_self)
open Book (SumsTo)

/-! ### Moves of value -/

section
variable {lamports lamports' : Pubkey → ℕ} {tokens tokens' : Pubkey → Option TokenAccount}
  {program source mint dest authority payer leg key : Pubkey} {n rent : ℕ}

theorem systemTransfer_ok (ran : systemTransfer lamports source dest n = .ok lamports') :
    n ≤ lamports source ∧ lamports' = moved lamports source dest n := by
  obtain ⟨_, enough, ran⟩ := bind_ok.1 ran
  exact ⟨ensure_ok.1 enough, (pure_ok.1 ran).symm⟩

theorem le_systemTransfer (ran : systemTransfer lamports source dest n = .ok lamports')
    (other : key ≠ source) : lamports key ≤ lamports' key := by
  obtain ⟨-, rfl⟩ := systemTransfer_ok ran
  exact le_moved other

theorem le_createLeg (ran : createLeg lamports payer leg rent = .ok lamports')
    (other : key ≠ payer) : lamports key ≤ lamports' key := by
  unfold createLeg at ran
  simp only at ran
  split_ifs at ran
  · exact le_systemTransfer ran other
  · exact le_systemTransfer ran other
  · cases ran
    exact le_rfl

theorem tokenAccount_ok {a : TokenAccount} (ran : tokenAccount tokens program key = .ok a) :
    tokens key = some a := by
  unfold tokenAccount at ran
  cases held : tokens key with
  | none =>
    rw [held] at ran
    cases ran
  | some b =>
    rw [held] at ran
    simp only at ran
    split_ifs at ran
    cases ran
    rfl

theorem transferChecked_ok
    (ran : transferChecked tokens program source mint dest authority n = .ok tokens') :
    ∃ a b, tokens source = some a ∧ tokens dest = some b ∧
      (a.owner = authority ∨ a.delegate = some authority) ∧
        tokens' = if source = dest then tokens
          else update (update tokens source (some { a with amount := a.amount - n }))
            dest (some { b with amount := b.amount + n }) := by
  obtain ⟨a, held_a, ran⟩ := bind_ok.1 ran
  obtain ⟨b, held_b, ran⟩ := bind_ok.1 ran
  obtain ⟨_, -, ran⟩ := bind_ok.1 ran
  obtain ⟨_, right, ran⟩ := bind_ok.1 ran
  obtain ⟨_, -, ran⟩ := bind_ok.1 ran
  refine ⟨a, b, tokenAccount_ok held_a, tokenAccount_ok held_b, ensure_ok.1 right, ?_⟩
  split_ifs at ran with same
  · rw [if_pos same]
    exact (pure_ok.1 ran).symm
  · rw [if_neg same]
    exact (pure_ok.1 ran).symm

theorem transferChecked_owners
    (ran : transferChecked tokens program source mint dest authority n = .ok tokens')
    {a : TokenAccount} (held : tokens' key = some a) :
    ∃ b, tokens key = some b ∧ a.owner = b.owner ∧ a.delegate = b.delegate := by
  obtain ⟨x, y, held_x, held_y, -, rfl⟩ := transferChecked_ok ran
  split_ifs at held with itself
  · exact ⟨a, held, rfl, rfl⟩
  · by_cases at_dest : key = dest
    · rw [at_dest, update_self] at held
      cases held
      exact ⟨y, at_dest ▸ held_y, rfl, rfl⟩
    · rw [update_of_ne at_dest] at held
      by_cases at_source : key = source
      · rw [at_source, update_self] at held
        cases held
        exact ⟨x, at_source ▸ held_x, rfl, rfl⟩
      · rw [update_of_ne at_source] at held
        exact ⟨a, held, rfl, rfl⟩

theorem le_transferChecked
    (ran : transferChecked tokens program source mint dest authority n = .ok tokens')
    {a : TokenAccount} (held : tokens key = some a) (owned : a.owner ≠ authority)
    (approved : a.delegate = none) :
    ∃ a', tokens' key = some a' ∧ a'.owner = a.owner ∧ a'.mint = a.mint ∧ a.amount ≤ a'.amount := by
  obtain ⟨x, y, held_x, held_y, right, rfl⟩ := transferChecked_ok ran
  split_ifs with itself
  · exact ⟨a, held, rfl, rfl, le_rfl⟩
  · have not_source : key ≠ source := by
      rintro rfl
      rw [held] at held_x
      cases held_x
      rw [approved] at right
      exact right.elim owned nofun
    by_cases at_dest : key = dest
    · subst at_dest
      rw [held] at held_y
      cases held_y
      rw [update_self]
      exact ⟨_, rfl, rfl, rfl, Nat.le_add_right _ _⟩
    · rw [update_of_ne at_dest, update_of_ne not_source]
      exact ⟨a, held, rfl, rfl, le_rfl⟩

end

/-! ### Addresses and views -/

section
variable [ProgramAddresses] {s s' : SolLock} {config config' : Pubkey} {id id' : Word} {l : SolLeg}

theorem legKey_inj (same : legKey config id = legKey config' id') : config = config' ∧ id = id' := by
  have one := ProgramAddresses.created config id
  have two := ProgramAddresses.created config' id'
  refine ProgramAddresses.injective one (two.trans (congrArg some ?_))
  exact same.symm

def SolLeg.terms (l : SolLeg) : Terms Pubkey Pubkey :=
  ⟨l.payer, l.recipient, l.mint, l.amount, l.escapeAt⟩

theorem view_setLeg : (s.setLeg (legKey config id) l).view config =
    update (s.view config) id (some ⟨l.terms, l.state⟩) := by
  funext id'
  unfold SolLock.view SolLock.setLeg
  by_cases same : id' = id
  · subst same
    simp only [update_self, map_some]
    rfl
  · have apart : legKey config id' ≠ legKey config id := fun eq => same (legKey_inj eq).2
    simp only [update_of_ne apart, update_of_ne same]

theorem view_setLeg_of_ne (other : config' ≠ config) :
    (s.setLeg (legKey config id) l).view config' = s.view config' := by
  funext id'
  unfold SolLock.view SolLock.setLeg
  have apart : legKey config' id' ≠ legKey config id := fun eq => other (legKey_inj eq).1
  simp only [update_of_ne apart]

def Backed (lamports : Pubkey → ℕ) (tokens : Pubkey → Option TokenAccount) (key : Pubkey)
    (l : SolLeg) : Prop :=
  l.amount ≠ 0 ∧ if l.mint = systemProgram then l.amount ≤ lamports key
    else ∃ a, tokens l.vault = some a ∧ a.owner = key ∧ a.mint = l.mint ∧ l.amount ≤ a.amount

omit [ProgramAddresses] in
theorem Backed.mono {lamports lamports' : Pubkey → ℕ} {tokens tokens' : Pubkey → Option TokenAccount}
    {key : Pubkey} (backed : Backed lamports tokens key l) (le : lamports key ≤ lamports' key)
    (kept : ∀ k a, tokens k = some a → a.owner = key → 0 < a.amount → ∃ a', tokens' k = some a' ∧
      a'.owner = a.owner ∧ a'.mint = a.mint ∧ a.amount ≤ a'.amount) :
    Backed lamports' tokens' key l := by
  obtain ⟨some_amount, held⟩ := backed
  refine ⟨some_amount, ?_⟩
  split_ifs at held ⊢ with native
  · exact held.trans le
  · obtain ⟨a, found, owner, mint, enough⟩ := held
    obtain ⟨a', found', owner', mint', more⟩ := kept l.vault a found owner (by omega)
    exact ⟨a', found', owner'.trans owner, mint'.trans mint, enough.trans more⟩

/-! ### The invariant -/

def Unapproved (tokens : Pubkey → Option TokenAccount) : Prop :=
  ∀ key a, tokens key = some a → IsLeg a.owner → a.delegate = none

theorem Unapproved.transferChecked {tokens tokens' : Pubkey → Option TokenAccount}
    {program source mint dest authority : Pubkey} {n : ℕ} (unapproved : Unapproved tokens)
    (sent : Solana.transferChecked tokens program source mint dest authority n = .ok tokens') :
    Unapproved tokens' := by
  intro key a held is_leg
  obtain ⟨b, held_b, owner, delegate⟩ := transferChecked_owners sent held
  rw [delegate]
  exact unapproved key b held_b (owner ▸ is_leg)

variable [SchemeHash]

/-- What a config records of its legs. -/
structure Recorded (legs : Word → Option (Leg Pubkey Pubkey)) (config : Option SolConfig)
    (entries : List Entry) (paid : List (Payout Pubkey Pubkey)) : Prop where
  machine : Reach ⟨legs, entries, paid⟩
  unused : config = none → entries = []
  booked : ∀ c, config = some c → c.acc = accumulate entries ∧ c.count = entries.length
  finite : ∃ ids : Finset Word, ∀ id ∉ ids, legs id = none

structure Kept (s : SolLock) : Prop where
  configs : ∀ config,
    Recorded (s.view config) (s.configs config) (s.entries config) (s.paid config)
  keyed : ∀ key l, s.legs key = some l → IsLeg key
  backed : ∀ key l, s.legs key = some l → l.state = .locked → Backed s.lamports s.tokens key l
  unapproved : Unapproved s.tokens

omit [ProgramAddresses] in
theorem record_ok {tx : Tx} {c : SolConfig} {plan : Word} {kind : UInt8} {amount : ℕ}
    (ran : s.record tx config c plan id kind amount = .ok s') :
    s' = { s with
      configs := update s.configs config (some { c with
        count := c.count + 1, acc := reconStep c.acc plan id kind amount })
      entries := update s.entries config
        (s.entries config ++ [⟨plan, id, kind, amount⟩]) } := by
  obtain ⟨_, -, ran⟩ := bind_ok.1 ran
  exact (pure_ok.1 ran).symm

omit [SchemeHash] in
theorem config_ok {tx : Tx} {c : SolConfig} (ran : s.config tx config = .ok c) :
    s.configs config = some c := by
  unfold SolLock.config at ran
  cases held : s.configs config with
  | none =>
    rw [held] at ran
    simp only at ran
    split_ifs at ran
  | some c' =>
    rw [held] at ran
    cases ran
    rfl

theorem Kept.write (kept : Kept s) {c : SolConfig} (known : s.configs config = some c) {plan : Word}
    {kind : UInt8}
    (after : s' = ⟨update s.configs config (some { c with
        count := c.count + 1, acc := reconStep c.acc plan id kind l.amount }),
      update s.legs (legKey config id) (some l), s'.lamports, s'.tokens,
      update s.entries config (s.entries config ++ [⟨plan, id, kind, l.amount⟩]), s'.paid⟩)
    (reach : Reach ⟨update (s.view config) id (some ⟨l.terms, l.state⟩),
      s.entries config ++ [⟨plan, id, kind, l.amount⟩], s'.paid config⟩)
    (paid_apart : ∀ config', config' ≠ config → s'.paid config' = s.paid config')
    (backed : ∀ key l', s'.legs key = some l' → l'.state = .locked →
      Backed s'.lamports s'.tokens key l')
    (unapproved : Unapproved s'.tokens) : Kept s' := by
  have configs : s'.configs = update s.configs config _ := congrArg SolLock.configs after
  have entries : s'.entries = update s.entries config _ := congrArg SolLock.entries after
  have legs : s'.legs = update s.legs (legKey config id) _ := congrArg SolLock.legs after
  have view (config' : Pubkey) : s'.view config' = (s.setLeg (legKey config id) l).view config' := by
    unfold SolLock.view SolLock.setLeg
    rw [legs]
  refine ⟨fun config' => ?_, fun key l' held => ?_, backed, unapproved⟩
  · rw [view, configs, entries]
    by_cases same : config' = config
    · subst same
      obtain ⟨ids, outside⟩ := (kept.configs config').finite
      have booked := (kept.configs config').booked c known
      simp only [view_setLeg, update_self]
      refine ⟨reach, nofun, fun c' held => ?_, insert id ids, fun id' absent => ?_⟩
      · obtain rfl := Option.some.inj held
        rw [accumulate_append, ← booked.1, List.length_append, ← booked.2]
        exact ⟨rfl, rfl⟩
      · rw [Finset.mem_insert, not_or] at absent
        rw [update_of_ne absent.1]
        exact outside id' absent.2
    · simp only [view_setLeg_of_ne same, update_of_ne same, paid_apart config' same]
      exact kept.configs config'
  · rw [legs] at held
    by_cases same : key = legKey config id
    · exact ⟨config, id, same⟩
    · rw [update_of_ne same] at held
      exact kept.keyed key l' held

/-! ### What each instruction keeps -/

variable {tx : Tx}

theorem Kept.initConfig (kept : Kept s) {finalityProgram finalityState : Pubkey} {horizon : ℕ}
    (ran : s.initConfig tx config finalityProgram finalityState horizon = .ok s') : Kept s' := by
  obtain ⟨_, -, ran⟩ := bind_ok.1 ran
  obtain ⟨_, -, ran⟩ := bind_ok.1 ran
  obtain ⟨_, -, ran⟩ := bind_ok.1 ran
  obtain ⟨_, fresh, ran⟩ := bind_ok.1 ran
  obtain rfl := pure_ok.1 ran
  refine ⟨fun config' => ?_, kept.keyed, kept.backed, kept.unapproved⟩
  have before := kept.configs config'
  by_cases same : config' = config
  · subst same
    have nothing := before.unused (ensure_ok.1 fresh).1
    refine ⟨before.machine, fun _ => nothing, fun c held => ?_, before.finite⟩
    simp only [update_self] at held
    cases held
    rw [nothing]
    exact ⟨rfl, rfl⟩
  · change Recorded _ (update s.configs config _ config') _ _
    rw [update_of_ne same]
    exact before

/-- A deposit leaves every other leg's account and puts the amount in the new leg's. -/
structure Deposited (s s' : SolLock) (leg mint vault : Pubkey) (amount : ℕ) : Prop where
  frame : s' = { s with lamports := s'.lamports, tokens := s'.tokens }
  lamports : ∀ key, IsLeg key → s.lamports key ≤ s'.lamports key
  tokens : ∀ key a, s.tokens key = some a → IsLeg a.owner → ∃ a', s'.tokens key = some a' ∧
    a'.owner = a.owner ∧ a'.mint = a.mint ∧ a.amount ≤ a'.amount
  unapproved : Unapproved s'.tokens
  held : if mint = systemProgram then amount ≤ s'.lamports leg
    else ∃ a, s'.tokens vault = some a ∧ a.owner = leg ∧ a.mint = mint ∧ amount ≤ a.amount

omit [SchemeHash] in
theorem deposit_ok (unapproved : Unapproved s.tokens) (keys : ∀ key, tx.signer key → ¬ IsLeg key)
    (no_mint : tx.owner systemProgram ≠ tokenProgram ∧ tx.owner systemProgram ≠ token2022Program)
    {leg payer funder mint vault : Pubkey} {token : List Pubkey} {amount : ℕ} (derived : IsLeg leg)
    (pays : tx.signer payer) (funds : tx.signer funder)
    (ran : s.deposit tx leg payer funder token amount = .ok (s', mint, vault)) :
    Deposited s s' leg mint vault amount := by
  have not_payer : ∀ key, IsLeg key → key ≠ payer := fun key is_leg same => keys payer pays (same ▸ is_leg)
  have not_funder : ∀ key, IsLeg key → key ≠ funder := fun key is_leg same =>
    keys funder funds (same ▸ is_leg)
  unfold SolLock.deposit at ran
  match token with
  | [] =>
    simp only at ran
    obtain ⟨lamports, created, ran⟩ := bind_ok.1 ran
    obtain ⟨lamports', sent, ran⟩ := bind_ok.1 ran
    cases pure_ok.1 ran
    refine ⟨rfl, fun key is_leg => ?_, fun key a held _ => ⟨a, held, rfl, rfl, le_rfl⟩, unapproved, ?_⟩
    · exact (le_createLeg created (not_funder key is_leg)).trans
        (le_systemTransfer sent (not_payer key is_leg))
    · rw [if_pos rfl]
      obtain ⟨-, rfl⟩ := systemTransfer_ok sent
      change amount ≤ moved lamports payer leg amount leg
      rw [moved_dest (not_payer leg derived)]
      exact Nat.le_add_left _ _
  | [_] => cases ran
  | [_, _] => cases ran
  | [_, _, _] => cases ran
  | mint' :: source :: vault' :: program :: _ =>
    simp only at ran
    simp only [bind_ok] at ran
    obtain ⟨_, real, _, owned, before, found, _, vault_of, lamports, created, tokens, sent,
      after, found', _, arrived, ran⟩ := ran
    cases pure_ok.1 ran
    have real := ensure_ok.1 real
    have owned := ensure_ok.1 owned
    have vault_of := ensure_ok.1 vault_of
    have arrived := ensure_ok.1 arrived
    have others : ∀ key a, s.tokens key = some a → IsLeg a.owner → ∃ a', tokens key = some a' ∧
        a'.owner = a.owner ∧ a'.mint = a.mint ∧ a.amount ≤ a'.amount := by
      intro key a held is_leg
      exact le_transferChecked sent held (not_payer a.owner is_leg) (unapproved key a held is_leg)
    refine ⟨rfl, fun key is_leg => le_createLeg created (not_funder key is_leg), others,
      unapproved.transferChecked sent, ?_⟩
    · have token_mint : mint ≠ systemProgram := by
        rintro rfl
        rw [owned] at no_mint
        exact real.elim no_mint.1 no_mint.2
      rw [if_neg token_mint]
      obtain ⟨a', held', owner, mint_of, -⟩ := others vault before (tokenAccount_ok found)
        (vault_of.2 ▸ derived)
      have same : a' = after := by
        have both := held'.symm.trans (tokenAccount_ok found')
        exact Option.some.inj both
      subst same
      exact ⟨a', held', owner.trans vault_of.2, mint_of.trans vault_of.1, by omega⟩

theorem Kept.lock (kept : Kept s) (keys : ∀ key, tx.signer key → ¬ IsLeg key)
    (no_mint : tx.owner systemProgram ≠ tokenProgram ∧ tx.owner systemProgram ≠ token2022Program)
    {leg payer funder system recipient : Pubkey} {token : List Pubkey} {plan : Word} {index : UInt8}
    {amount : ℕ}
    (ran : s.lock tx config leg payer funder system token plan index amount recipient = .ok s') :
    Kept s' := by
  obtain ⟨c, known, ran⟩ := bind_ok.1 ran
  obtain ⟨_, positive, ran⟩ := bind_ok.1 ran
  obtain ⟨_, signed, ran⟩ := bind_ok.1 ran
  obtain ⟨_, -, ran⟩ := bind_ok.1 ran
  obtain ⟨_, address, ran⟩ := bind_ok.1 ran
  obtain ⟨_, fresh, ran⟩ := bind_ok.1 ran
  obtain ⟨⟨deposited, mint, vault⟩, came, ran⟩ := bind_ok.1 ran
  have known := config_ok known
  have positive := ensure_ok.1 positive
  have signed := ensure_ok.1 signed
  have address : leg = legKey config (legId plan index) := ensure_ok.1 address
  have fresh := (ensure_ok.1 fresh).2.1
  subst address
  have came := deposit_ok kept.unapproved keys no_mint ⟨config, legId plan index, rfl⟩ signed.1
    signed.2 came
  obtain rfl := record_ok ran
  rw [came.frame]
  have absent : s.view config (legId plan index) = none := by
    unfold SolLock.view
    rw [fresh]
    rfl
  refine kept.write (l := ⟨lockedStage, payer, recipient, mint, vault, amount, _, _⟩) known rfl ?_
    (fun _ _ => rfl) (fun key l' held locked => ?_) came.unapproved
  · exact .lock (kept.configs config).machine index rfl absent
  · change update s.legs _ _ key = _ at held
    by_cases own : key = legKey config (legId plan index)
    · subst own
      rw [update_self] at held
      cases held
      exact ⟨positive, came.held⟩
    · rw [update_of_ne own] at held
      have is_leg := kept.keyed key l' held
      refine (kept.backed key l' held locked).mono (came.lamports key is_leg)
        fun k a found owner _ => came.tokens k a found (owner ▸ is_leg)

theorem loadLeg_ok {leg : Pubkey} {plan : Word} {index : UInt8}
    (keyed : ∀ key l, s.legs key = some l → IsLeg key)
    (ran : s.loadLeg tx config leg plan index = .ok (id, l)) :
    id = legId plan index ∧ leg = legKey config id ∧ s.legs leg = some l := by
  unfold SolLock.loadLeg at ran
  cases held : s.legs leg with
  | none =>
    rw [held] at ran
    cases ran
  | some l' =>
    rw [held] at ran
    simp only at ran
    obtain ⟨_, -, ran⟩ := bind_ok.1 ran
    obtain ⟨_, address, ran⟩ := bind_ok.1 ran
    cases pure_ok.1 ran
    obtain ⟨config', id', rfl⟩ := keyed leg l held
    obtain ⟨rfl, rfl⟩ := ProgramAddresses.injective (ensure_ok.1 address)
      (ProgramAddresses.created config' id')
    exact ⟨rfl, rfl, rfl⟩

/-- A payment leaves every other leg's account. -/
structure PaidOut (s s' : SolLock) (config leg : Pubkey) (p : Payout Pubkey Pubkey) : Prop where
  frame : s' = { s with
    lamports := s'.lamports
    tokens := s'.tokens
    paid := update s.paid config (s.paid config ++ [p]) }
  lamports : ∀ key, key ≠ leg → s.lamports key ≤ s'.lamports key
  tokens : ∀ key a, s.tokens key = some a → IsLeg a.owner → a.owner ≠ leg → ∃ a',
    s'.tokens key = some a' ∧ a'.owner = a.owner ∧ a'.mint = a.mint ∧ a.amount ≤ a'.amount
  unapproved : Unapproved s'.tokens

omit [SchemeHash] in
theorem payOut_ok (unapproved : Unapproved s.tokens) {leg dest : Pubkey} {token : List Pubkey}
    {p : Payout Pubkey Pubkey} (ran : s.payOut config leg dest token l p = .ok s') :
    PaidOut s s' config leg p := by
  unfold SolLock.payOut at ran
  simp only at ran
  split_ifs at ran with native
  · obtain ⟨_, -, ran⟩ := bind_ok.1 ran
    obtain ⟨lamports, sent, ran⟩ := bind_ok.1 ran
    obtain rfl := pure_ok.1 ran
    exact ⟨rfl, fun key other => le_systemTransfer sent other,
      fun key a held _ _ => ⟨a, held, rfl, rfl, le_rfl⟩, unapproved⟩
  · match token with
    | [] => cases ran
    | [_] => cases ran
    | [_, _] => cases ran
    | mint :: vault :: program :: _ =>
      simp only at ran
      simp only [bind_ok] at ran
      obtain ⟨_, -, _, -, _, -, tokens, sent, ran⟩ := ran
      obtain rfl := pure_ok.1 ran
      exact ⟨rfl, fun _ _ => le_rfl, fun key a held is_leg other =>
        le_transferChecked sent held other (unapproved key a held is_leg),
        unapproved.transferChecked sent⟩

theorem Kept.pay (kept : Kept s) {leg dest : Pubkey} {token : List Pubkey} {plan : Word}
    {index : UInt8} {next : LegState} {cause : Cause} {c : SolConfig}
    (known : s.configs config = some c) (own : id = legId plan index)
    (address : leg = legKey config id) (found : s.legs leg = some l) (locked : l.state = .locked)
    (allowed : cause.Allows plan l.terms next)
    (ran : s.pay tx config leg dest c token plan id l next cause = .ok s') : Kept s' := by
  subst address
  obtain ⟨⟨wallet, stage, kind⟩, named, ran⟩ := bind_ok.1 ran
  obtain ⟨recorded, written, ran⟩ := bind_ok.1 ran
  obtain rfl := record_ok written
  have unapproved : Unapproved s.tokens := kept.unapproved
  have paid := payOut_ok (by exact unapproved) ran
  rw [paid.frame]
  have payee : wallet = l.terms.payee next ∧ kind = next.kind ∧
      ({ l with stage } : SolLeg).state = next := by
    cases next with
    | locked => cases named
    | released =>
      cases named
      exact ⟨rfl, rfl, rfl⟩
    | refunded =>
      cases named
      exact ⟨rfl, rfl, rfl⟩
  obtain ⟨rfl, rfl, moved⟩ := payee
  have held : s.view config id = some ⟨l.terms, .locked⟩ := by
    unfold SolLock.view
    rw [found, map_some, locked]
    rfl
  refine kept.write (l := { l with stage }) known rfl ?_ (fun config' other => ?_)
    (fun key l' stored still => ?_) paid.unapproved
  · rw [moved]
    simp only [update_self]
    exact .move (kept.configs config).machine index own held allowed
  · exact update_of_ne other _ _
  · change update s.legs _ _ key = _ at stored
    by_cases itself : key = legKey config id
    · rw [itself, update_self] at stored
      cases stored
      exact absurd (moved.symm.trans still) allowed.moves
    · rw [update_of_ne itself] at stored
      have is_leg := kept.keyed key l' stored
      exact (kept.backed key l' stored still).mono (paid.lamports key itself)
        fun k a at_k owner _ => paid.tokens k a at_k (owner ▸ is_leg) (owner ▸ itself)

/-! ### Whole runs -/

theorem Kept.execute (kept : Kept s) {instruction : SolInstruction}
    (keys : ∀ key, tx.signer key → ¬ IsLeg key)
    (no_mint : tx.owner systemProgram ≠ tokenProgram ∧ tx.owner systemProgram ≠ token2022Program)
    (ran : s.execute tx instruction = .ok s') : Kept s' := by
  cases instruction with
  | initConfig config finalityProgram finalityState horizon => exact kept.initConfig ran
  | lock config leg payer funder system token plan index amount recipient =>
    exact kept.lock keys no_mint ran
  | settle config leg finality buffer dest token plan index checkpoint =>
    obtain ⟨c, known, ran⟩ := bind_ok.1 ran
    obtain ⟨⟨id, l⟩, loaded, ran⟩ := bind_ok.1 ran
    obtain ⟨root, -, ran⟩ := bind_ok.1 ran
    obtain ⟨own, address, found⟩ := loadLeg_ok kept.keyed loaded
    cases staged : tx.staged buffer with
    | none =>
      simp only [staged] at ran
      cases ran
    | some payload =>
      simp only [staged] at ran
      obtain ⟨_, -, ran⟩ := bind_ok.1 ran
      obtain ⟨next, moves, ran⟩ := bind_ok.1 ran
      have moves := mapError_ok.1 moves
      have locked := (settleLeg_ok moves).1
      rw [locked] at moves
      have allowed : (Cause.proven root (payload.take decisionLen) (payload.drop decisionLen)).Allows
        plan l.terms next := moves
      exact kept.pay (config_ok known) own address found locked allowed ran
  | escape config leg dest token plan index =>
    obtain ⟨c, known, ran⟩ := bind_ok.1 ran
    obtain ⟨⟨id, l⟩, loaded, ran⟩ := bind_ok.1 ran
    obtain ⟨own, address, found⟩ := loadLeg_ok kept.keyed loaded
    obtain ⟨next, moves, ran⟩ := bind_ok.1 ran
    have moves := mapError_ok.1 moves
    have locked := (escapeLeg_ok.1 moves).1
    rw [locked] at moves
    have allowed : (Cause.escaped tx.now).Allows plan l.terms next := moves
    exact kept.pay (config_ok known) own address found locked allowed ran

theorem Kept.step (kept : Kept s) {a : SolStep} (admissible : Admissible s a) : Kept (s.step a) := by
  cases a with
  | call tx instruction =>
    unfold SolLock.step
    cases ran : s.execute tx instruction with
    | error e =>
      simp only [ran]
      exact kept
    | ok s' =>
      simp only [ran]
      exact kept.execute admissible.1 admissible.2 ran
  | other lamports tokens =>
    obtain ⟨no_less, tokens_kept, unapproved⟩ := admissible
    refine ⟨kept.configs, kept.keyed, fun key l held locked => ?_, unapproved⟩
    have held : s.legs key = some l := held
    refine (kept.backed key l held locked).mono (no_less key ?_) fun k a found owner positive =>
      tokens_kept k a found (owner ▸ kept.keyed key l held) positive
    simp [held]

theorem Kept.run (kept : Kept s) {steps : List SolStep} (along : s.Along Admissible steps) :
    Kept (s.run steps) := by
  induction steps generalizing s with
  | nil => exact kept
  | cons a rest ih => exact ih (kept.step along.1) along.2

theorem kept_start : Kept .start where
  configs _ := ⟨.empty, fun _ => rfl, nofun, ∅, fun _ _ => rfl⟩
  keyed := nofun
  backed := nofun
  unapproved := nofun

/-- Two locked legs of one asset are in different accounts. -/
def Apart (s : SolLock) (config : Pubkey) : Prop :=
  ∀ id id' l l', s.legs (legKey config id) = some l → s.legs (legKey config id') = some l' →
    l.state = .locked → l'.state = .locked → l.mint ≠ systemProgram → l.vault = l'.vault →
      l.mint = l'.mint → id = id'

def SolLock.books (s : SolLock) (config : Pubkey) : Word × ℕ :=
  match s.configs config with
  | none => (ProofVerifiers.empty, 0)
  | some c => (c.acc, c.count)

theorem Kept.books (kept : Kept s) :
    s.books config = (accumulate (s.entries config), (s.entries config).length) := by
  unfold SolLock.books
  cases held : s.configs config with
  | none =>
    rw [(kept.configs config).unused held]
    rfl
  | some c =>
    obtain ⟨acc, count⟩ := (kept.configs config).booked c held
    simp only
    rw [acc, count]

/-- What holds of a config of the program after every run. -/
structure SolSound (s : SolLock) (config : Pubkey) : Prop where
  sound : LockSound (s.view config) (s.entries config) (s.paid config) (s.books config).1
    (s.books config).2
  apart : Apart s config
  covered : ∀ asset, ∃ locked held, SumsTo (fun id => lockedIn asset (s.view config id)) locked ∧
    SumsTo (s.heldFor config asset) held ∧ locked ≤ held
  paid : ∀ id leg, s.view config id = some leg → leg.state ≠ .locked →
    ∃ p ∈ s.paid config, p.leg = id

theorem Kept.apart (kept : Kept s) : Apart s config := by
  intro id id' l l' held held' locked locked' token same_vault same_mint
  have backed := (kept.backed _ l held locked).2
  have backed' := (kept.backed _ l' held' locked').2
  rw [if_neg token] at backed
  rw [if_neg (same_mint ▸ token), ← same_vault] at backed'
  obtain ⟨a, found, owner, -, -⟩ := backed
  obtain ⟨a', found', owner', -, -⟩ := backed'
  rw [found] at found'
  cases found'
  exact (legKey_inj (owner.symm.trans owner')).2

theorem Kept.lockedIn_le (kept : Kept s) (asset : Pubkey) (id : Word) :
    lockedIn asset (s.view config id) ≤ s.heldFor config asset id := by
  unfold SolLock.view SolLock.heldFor
  cases held : s.legs (legKey config id) with
  | none => exact le_rfl
  | some l =>
    simp only [map_some]
    by_cases locked : l.state = .locked
    · rw [locked]
      change (if l.mint = asset then l.amount else 0) ≤ _
      by_cases own : l.mint = asset
      · obtain ⟨-, backed⟩ := kept.backed _ l held locked
        rw [if_pos own, if_pos ⟨rfl, own⟩]
        subst own
        split_ifs at backed ⊢
        · exact backed
        · obtain ⟨a, found, -, -, enough⟩ := backed
          rw [found]
          exact enough
      · rw [if_neg own]
        exact Nat.zero_le _
    · have nothing : lockedIn asset (some (⟨⟨l.payer, l.recipient, l.mint, l.amount, l.escapeAt⟩,
          l.state⟩ : Leg Pubkey Pubkey)) = 0 := by
        cases moved : l.state with
        | locked => exact absurd moved locked
        | released => rfl
        | refunded => rfl
      rw [nothing]
      exact Nat.zero_le _

theorem Kept.covered (kept : Kept s) (asset : Pubkey) :
    ∃ locked held, SumsTo (fun id => lockedIn asset (s.view config id)) locked ∧
      SumsTo (s.heldFor config asset) held ∧ locked ≤ held := by
  obtain ⟨ids, outside⟩ := (kept.configs config).finite
  have none_held : ∀ id ∉ ids, s.heldFor config asset id = 0 := by
    intro id absent
    have nothing := outside id absent
    unfold SolLock.view at nothing
    unfold SolLock.heldFor
    rw [map_eq_none_iff.1 nothing]
  have summed : ∀ f : Word → ℕ, (∀ id ∉ ids, f id = 0) → ∃ n, SumsTo f n := by
    intro f zero
    exact ⟨_, Finsupp.onFinset ids f fun id used => by_contra fun absent => used (zero id absent),
      fun _ => rfl, rfl⟩
  obtain ⟨locked, locked_sum⟩ := summed (fun id => lockedIn asset (s.view config id))
    fun id absent => by
      simp only [outside id absent]
      rfl
  obtain ⟨held, held_sum⟩ := summed (s.heldFor config asset) none_held
  exact ⟨locked, held, locked_sum, held_sum, locked_sum.mono held_sum (kept.lockedIn_le asset)⟩

theorem solana_sound (steps : List SolStep) (along : SolLock.start.Along Admissible steps)
    (config : Pubkey) : SolSound (SolLock.start.run steps) config := by
  have kept := kept_start.run along
  have legit := (kept.configs config).machine.legit
  refine ⟨?_, kept.apart, kept.covered, fun id leg held moved => legit.paid_moved held moved⟩
  rw [kept.books]
  exact legit.sound (by rw [List.append_nil])

end

end Solana
end Tenzro.Settlement
