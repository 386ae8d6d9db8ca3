import SeanetSim.Applications.SwitchApplication
import SeanetSim.Lib.Reachable

/-!
# Switches that share the tables

Any number of switches over the same three tables.  A step starts a switch, or hands a packet to a
switch that has started and has a local address; the packet and its source are whatever the network
brings, so a run covers every interleaving of the packets in flight.
-/

namespace SeanetSim

open AddressMap SwitchApplicationv4

variable {ι : Type*} {M : Type → Type} [AddressMap M]

/-- The shared tables and the switches, one for each node of `ι`. -/
structure Net (ι : Type*) (M : Type → Type) where
  tables : Tables M
  switches : ι → SwitchApplicationv4 M

/-- The attributes of a switch and the addresses of its node. -/
structure SwitchConfig where
  treeType : TreeType
  isEntrySwitch : Bool
  interfaces : List Ipv4Address

/-- A switch as constructed. -/
def SwitchConfig.create (c : SwitchConfig) : SwitchApplicationv4 M where
  treeType := c.treeType
  isEntrySwitch := c.isEntrySwitch
  interfaces := c.interfaces
  started := false
  localAddress := none
  delayTable := empty
  eidTable := fun _ => 0

namespace Net

/-- Nothing has started and the tables are empty. -/
def initial (config : ι → SwitchConfig) : Net ι M where
  tables := ⟨empty, empty, fun _ => none⟩
  switches i := (config i).create

variable [DecidableEq ι]

/-- `StartApplication` at node `i`. -/
def start (net : Net ι M) (i : ι) : Net ι M :=
  let o := (net.switches i).startApplication net.tables
  ⟨o.2, Function.update net.switches i o.1⟩

/-- `FrontEnd` at node `i`, whose local address is `self`. -/
def receive (net : Net ι M) (i : ι) (self : Ipv4Address) (now : Time) (pkt : Packet)
    (source : Address) : Net ι M :=
  let o := (net.switches i).frontEnd net.tables self now pkt source
  ⟨o.tables, Function.update net.switches i o.sw⟩

/-- The packets that `FrontEnd` at node `i` sends. -/
def sentBy (net : Net ι M) (i : ι) (self : Ipv4Address) (now : Time) (pkt : Packet)
    (source : Address) : List Datagram :=
  ((net.switches i).frontEnd net.tables self now pkt source).sent

/-- Node `i` runs a started switch with local address `self`. -/
def Runs (net : Net ι M) (i : ι) (self : Ipv4Address) : Prop :=
  (net.switches i).started = true ∧ (net.switches i).localAddress = some self

inductive Start : Net ι M → Net ι M → Prop
  | mk {net : Net ι M} (i : ι) : Start net (net.start i)

/-- A started switch handles a packet of the kind `P`. -/
inductive Receive (P : Packet → Prop) : Net ι M → Net ι M → Prop
  | mk {net : Net ι M} {i : ι} {self : Ipv4Address} (now : Time) {pkt : Packet} (source : Address)
      (hi : net.Runs i self) (hp : P pkt) : Receive P net (net.receive i self now pkt source)

/-- Switches start and handle packets in any order. -/
def Step (net net' : Net ι M) : Prop := Start net net' ∨ Receive (fun _ => True) net net'

/-- The initial states, for any attributes and addresses. -/
def Init : Set (Net ι M) := Set.range initial

/-- Some switches have started and no packet has arrived. -/
def Started : Set (Net ι M) := {net | Reachable Init Start net}

theorem Started.reachable {net : Net ι M} (h : net ∈ Started) : Reachable Init Step net :=
  Reachable.mono (fun _ _ => .inl) h

end Net

/-! ## Running switches -/

/-- Of a switch, a packet only changes the delay table and the table of stored identifiers. -/
theorem SwitchApplicationv4.frontEnd_sw (sw : SwitchApplicationv4 M) (T : Tables M)
    (self : Ipv4Address) (now : Time) (pkt : Packet) (source : Address) :
    ∃ d t, (frontEnd sw T self now pkt source).sw = { sw with delayTable := d, eidTable := t } := by
  unfold frontEnd
  dsimp only
  split_ifs
  · unfold transitHandle
    split_ifs <;> exact ⟨_, _, rfl⟩
  · exact ⟨_, _, rfl⟩
  · unfold switchProtocolHandle requestDataHandle receiveDataHandle addEIDTable
    split_ifs <;> exact ⟨_, _, rfl⟩
  · unfold neigthInfoProtocolHandle
    dsimp only
    split_ifs <;> exact ⟨_, _, rfl⟩
  · unfold multicastHandle registToSourceDRHandle registToRNHandle graftingRequestHandle
      registToDestDRHandle
    dsimp only
    split_ifs <;> exact ⟨_, _, rfl⟩
  · exact ⟨_, _, rfl⟩

namespace Net

variable [DecidableEq ι]

/-- Handling a packet starts and stops no switch. -/
theorem runs_receive {net : Net ι M} {i j : ι} {self self' : Ipv4Address} {now : Time}
    {pkt : Packet} {source : Address} :
    (net.receive i self now pkt source).Runs j self' ↔ net.Runs j self' := by
  unfold Runs receive
  by_cases hj : j = i
  · subst hj
    obtain ⟨d, t, hsw⟩ := frontEnd_sw (net.switches j) net.tables self now pkt source
    simp [hsw]
  · simp [Function.update_of_ne hj]

/-- A start does nothing; or finds no interface; or names the switch after its first interface
that is not the loopback and stores null pointers under that address. -/
theorem start_cases (net : Net ι M) (i : ι) :
    net.start i = net ∨ (net.switches i).started = false ∧
      (net.start i = ⟨net.tables,
          Function.update net.switches i { net.switches i with started := true }⟩ ∨
        ∃ addri, (net.switches i).interfaces.find? (fun a => !a.same .getLoopback) = some addri ∧
          net.start i = ⟨{ net.tables with
              multicastTable := store net.tables.multicastTable addri none
              unicastTable := store net.tables.unicastTable addri none },
            Function.update net.switches i
              { net.switches i with started := true, localAddress := some addri.viaAddress }⟩) := by
  unfold start startApplication
  dsimp only
  split_ifs with h
  · left
    simp
  · refine .inr ⟨by simpa using h, ?_⟩
    split
    · exact .inl rfl
    · next addri haddri => exact .inr ⟨addri, haddri, rfl⟩

/-- A running switch is not started again, and starting another one leaves it as it is. -/
theorem Runs.start {net : Net ι M} {j : ι} {self : Ipv4Address} (hj : net.Runs j self) (i : ι) :
    (net.start i).Runs j self := by
  unfold Net.start startApplication
  by_cases h : j = i
  · subst h
    simpa [Runs, hj.1] using hj.2
  · simpa [Runs, Function.update_of_ne h] using hj

theorem start_interfaces (net : Net ι M) (i j : ι) :
    ((net.start i).switches j).interfaces = (net.switches j).interfaces := by
  by_cases hj : j = i
  · subst hj
    rcases net.start_cases j with h | ⟨-, h | ⟨_, -, h⟩⟩ <;> simp [h]
  · simp [start, Function.update_of_ne hj]

theorem start_delayTable (net : Net ι M) (i j : ι) :
    ((net.start i).switches j).delayTable = (net.switches j).delayTable := by
  by_cases hj : j = i
  · subst hj
    rcases net.start_cases j with h | ⟨-, h | ⟨_, -, h⟩⟩ <;> simp [h]
  · simp [start, Function.update_of_ne hj]

/-- A local address is an old one, or that of the first interface that is not the loopback. -/
theorem localAddress_start {net : Net ι M} {i j : ι} {self : Ipv4Address}
    (h : ((net.start i).switches j).localAddress = some self) :
    (net.switches j).localAddress = some self ∨ ∃ addri,
      (net.switches j).interfaces.find? (fun a => !a.same .getLoopback) = some addri ∧
        self = addri.viaAddress := by
  by_cases hj : j = i
  · subst hj
    rcases net.start_cases j with hs | ⟨-, hs | ⟨addri, haddri, hs⟩⟩ <;> rw [hs] at h
    · exact .inl h
    · exact .inl (by simpa using h)
    · exact .inr ⟨addri, haddri, Eq.symm (by simpa using h)⟩
  · exact .inl (by simpa [start, Function.update_of_ne hj] using h)

theorem receive_interfaces (net : Net ι M) (i j : ι) (self : Ipv4Address) (now : Time)
    (pkt : Packet) (source : Address) :
    ((net.receive i self now pkt source).switches j).interfaces = (net.switches j).interfaces := by
  unfold receive
  by_cases hj : j = i
  · subst hj
    obtain ⟨d, t, hsw⟩ := frontEnd_sw (net.switches j) net.tables self now pkt source
    simp [hsw]
  · simp [Function.update_of_ne hj]

theorem receive_localAddress (net : Net ι M) (i j : ι) (self : Ipv4Address) (now : Time)
    (pkt : Packet) (source : Address) :
    ((net.receive i self now pkt source).switches j).localAddress =
      (net.switches j).localAddress := by
  unfold receive
  by_cases hj : j = i
  · subst hj
    obtain ⟨d, t, hsw⟩ := frontEnd_sw (net.switches j) net.tables self now pkt source
    simp [hsw]
  · simp [Function.update_of_ne hj]

end Net

/-! ## A net with one running switch -/

namespace Net

/-- Every node has one interface, whose address is its name; the switch of `a` has started. -/
def lone (a : UInt32) : Net UInt32 PairMap :=
  (initial fun b => ⟨.seanet, false, [⟨b, 0⟩]⟩).start a

theorem lone_mem_started (a : UInt32) : lone a ∈ Started :=
  Reachable.tail (.of_init ⟨_, rfl⟩) (.mk a)

theorem runs_lone : (lone 0x0a000001).Runs 0x0a000001 ⟨0x0a000001, 0⟩ := by
  constructor <;> decide

end Net

end SeanetSim
