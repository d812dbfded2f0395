import VmIo.Lib.Bytes

/-!
The addresses a server binds: wildcards become the routable addresses of the local
interfaces.
-/

namespace VmIo.Chan

open VmIo.Lib

/-- `std::net::IpAddr`, by its octets. -/
inductive IpAddr
  | v4 (octets : Vector UInt8 4)
  | v6 (octets : Vector UInt8 16)
  deriving DecidableEq

namespace IpAddr

def isIpv4 : IpAddr → Bool
  | v4 _ => true
  | v6 _ => false

/-- `0.0.0.0` or `::` -/
def isUnspecified : IpAddr → Bool
  | v4 octets => octets = Vector.replicate 4 0
  | v6 octets => octets = Vector.replicate 16 0

/-- `127.0.0.0/8` or `::1` -/
def isLoopback : IpAddr → Bool
  | v4 octets => octets[0] = 127
  | v6 octets => octets = (Vector.replicate 15 0).push 1

end IpAddr

/-- `169.254.0.0/16` or `fe80::/10` -/
def isLinkLocal : IpAddr → Bool
  | .v4 octets => octets[0] = 169 ∧ octets[1] = 254
  | .v6 octets => octets[0] = 0xfe ∧ octets[1] &&& 0xc0 = 0x80

/-- `std::net::SocketAddr` -/
inductive SocketAddr
  | v4 (ip : Vector UInt8 4) (port : UInt16)
  | v6 (ip : Vector UInt8 16) (port : UInt16) (flowinfo scopeId : UInt32)
  deriving DecidableEq

namespace SocketAddr

def new : IpAddr → UInt16 → SocketAddr
  | .v4 ip, port => v4 ip port
  | .v6 ip, port => v6 ip port 0 0

def ip : SocketAddr → IpAddr
  | v4 ip _ => .v4 ip
  | v6 ip _ _ _ => .v6 ip

def port : SocketAddr → UInt16
  | v4 _ port => port
  | v6 _ port _ _ => port

def isIpv4 (addr : SocketAddr) : Bool := addr.ip.isIpv4

end SocketAddr

structure NetworkInterface where
  internal : Bool
  /-- the `ip()` of each address -/
  addr : List IpAddr

/-- The body of the inner loop, with `out` and `found`. -/
def visitAddr (addr : SocketAddr) (wantV4 : Bool) (acc : List SocketAddr × Bool) (ip : IpAddr) :
    List SocketAddr × Bool :=
  if ip.isIpv4 ≠ wantV4 ∨ ip.isLoopback ∨ isLinkLocal ip then acc
  -- an address that is in the list already is pushed once more
  else (acc.1 ++ [SocketAddr.new ip addr.port], true)

/-- The body of the loop over the interfaces. -/
def visitIface (addr : SocketAddr) (wantV4 : Bool) (acc : List SocketAddr × Bool)
    (iface : NetworkInterface) : List SocketAddr × Bool :=
  if iface.internal then acc else iface.addr.foldl (visitAddr addr wantV4) acc

/-- The body of the loop over the bind list. -/
def expandAddr (ifaces : List NetworkInterface) (out : List SocketAddr) (addr : SocketAddr) :
    List SocketAddr :=
  if ¬addr.ip.isUnspecified then out ++ [addr]
  else
    let acc := ifaces.foldl (visitIface addr addr.isIpv4) (out, false)
    if ¬acc.2 then acc.1 ++ [addr] else acc.1

def expandBindAddrs (bind : List SocketAddr) (ifaces : List NetworkInterface) : List SocketAddr :=
  bind.foldl (expandAddr ifaces) []

/-- The bind list of `ChanSrv::new`, given what the system tells of the interfaces. -/
def resolveBindAddrs (bind : List SocketAddr) (ifaces : Except String (List NetworkInterface)) :
    Except String (List SocketAddr) :=
  if ¬bind.any fun addr => addr.ip.isUnspecified then .ok bind
  else ifaces.map (expandBindAddrs bind)

/-! ### What the loops come to -/

/-- What the loops take of the addresses of an interface. -/
def routable (wantV4 : Bool) (ip : IpAddr) : Bool :=
  ip.isIpv4 = wantV4 ∧ ¬ip.isLoopback ∧ ¬isLinkLocal ip

/-- The routable addresses of a family that the interfaces carry, each as often as it is
carried. -/
def carried (ifaces : List NetworkInterface) (wantV4 : Bool) : List IpAddr :=
  (ifaces.filter fun iface => !iface.internal).flatMap fun iface =>
    iface.addr.filter (routable wantV4)

/-- What becomes of one address of the bind list. -/
def expansion (ifaces : List NetworkInterface) (addr : SocketAddr) : List SocketAddr :=
  if addr.ip.isUnspecified ∧ carried ifaces addr.isIpv4 ≠ [] then
    (carried ifaces addr.isIpv4).map fun ip => SocketAddr.new ip addr.port
  else [addr]

theorem visitAddr_eq (addr : SocketAddr) (wantV4 : Bool) (acc : List SocketAddr × Bool)
    (ip : IpAddr) :
    visitAddr addr wantV4 acc ip =
      if routable wantV4 ip then (acc.1 ++ [SocketAddr.new ip addr.port], true) else acc := by
  unfold visitAddr routable
  by_cases hfamily : ip.isIpv4 = wantV4 <;> by_cases hloop : ip.isLoopback <;>
    by_cases hlocal : isLinkLocal ip <;> simp [hfamily, hloop, hlocal]

theorem foldl_visitAddr (addr : SocketAddr) (wantV4 : Bool) (ips : List IpAddr)
    (acc : List SocketAddr × Bool) :
    ips.foldl (visitAddr addr wantV4) acc =
      (acc.1 ++ (ips.filter (routable wantV4)).map fun ip => SocketAddr.new ip addr.port,
        acc.2 || !(ips.filter (routable wantV4)).isEmpty) := by
  induction ips generalizing acc with
  | nil => simp
  | cons ip ips ih =>
      rw [List.foldl_cons, visitAddr_eq, ih]
      by_cases hip : routable wantV4 ip = true
      · simp [hip]
      · simp [hip]

theorem foldl_visitIface (addr : SocketAddr) (wantV4 : Bool) (ifaces : List NetworkInterface)
    (acc : List SocketAddr × Bool) :
    ifaces.foldl (visitIface addr wantV4) acc =
      (acc.1 ++ (carried ifaces wantV4).map fun ip => SocketAddr.new ip addr.port,
        acc.2 || !(carried ifaces wantV4).isEmpty) := by
  induction ifaces generalizing acc with
  | nil => simp [carried]
  | cons iface ifaces ih =>
      rw [List.foldl_cons, visitIface, ih]
      by_cases hinternal : iface.internal = true
      · simp [carried, hinternal]
      · have hempty : ∀ l l' : List IpAddr, (l ++ l').isEmpty = (l.isEmpty && l'.isEmpty) := by
          intro l l'
          cases l <;> rfl
        rw [if_neg hinternal, foldl_visitAddr]
        simp [carried, hinternal, Bool.or_assoc, hempty]

theorem expandAddr_eq (ifaces : List NetworkInterface) (out : List SocketAddr) (addr : SocketAddr) :
    expandAddr ifaces out addr = out ++ expansion ifaces addr := by
  unfold expandAddr expansion
  rw [foldl_visitIface]
  by_cases hwild : addr.ip.isUnspecified = true
  · by_cases hcarried : carried ifaces addr.isIpv4 = []
    · simp [hwild, hcarried]
    · simp [hwild, hcarried]
  · simp [hwild]

theorem expandBindAddrs_eq (bind : List SocketAddr) (ifaces : List NetworkInterface) :
    expandBindAddrs bind ifaces = bind.flatMap (expansion ifaces) := by
  have hall : ∀ out,
      bind.foldl (expandAddr ifaces) out = out ++ bind.flatMap (expansion ifaces) := by
    induction bind with
    | nil => simp
    | cons addr bind ih =>
        intro out
        rw [List.foldl_cons, expandAddr_eq, ih, List.flatMap_cons, List.append_assoc]
  exact (hall []).trans (List.nil_append _)

theorem resolveBindAddrs_ok {bind : List SocketAddr} {ifaces : List NetworkInterface} :
    resolveBindAddrs bind (.ok ifaces) = .ok (expandBindAddrs bind ifaces) := by
  unfold resolveBindAddrs
  split
  · rename_i hconcrete
    rw [expandBindAddrs_eq]
    have hself : ∀ addr ∈ bind, expansion ifaces addr = [addr] := by
      intro addr haddr
      have hwild : ¬addr.ip.isUnspecified = true := fun h =>
        hconcrete (List.any_eq_true.mpr ⟨addr, haddr, h⟩)
      rw [expansion, if_neg fun h => hwild h.1]
    rw [List.flatMap_congr hself, List.flatMap_singleton']
  · rfl

/-! ### What it is for -/

/-- A non-internal interface carries the address, and it is neither loopback nor
link-local. -/
structure Routable (ifaces : List NetworkInterface) (wantV4 : Bool) (ip : IpAddr) : Prop where
  family : ip.isIpv4 = wantV4
  notLoopback : ip.isLoopback = false
  notLinkLocal : isLinkLocal ip = false
  carried : ∃ iface ∈ ifaces, iface.internal = false ∧ ip ∈ iface.addr

/-- What an address of the bind list may be replaced by. -/
inductive Expands (ifaces : List NetworkInterface) (addr : SocketAddr) : List SocketAddr → Prop
  | concrete : addr.ip.isUnspecified = false → Expands ifaces addr [addr]
  | routable {part : List SocketAddr} : addr.ip.isUnspecified = true →
      (∃ ip, Routable ifaces addr.isIpv4 ip) →
      (∀ a, a ∈ part ↔ ∃ ip, Routable ifaces addr.isIpv4 ip ∧ a = SocketAddr.new ip addr.port) →
      Expands ifaces addr part
  | retained : addr.ip.isUnspecified = true → (∀ ip, ¬Routable ifaces addr.isIpv4 ip) →
      Expands ifaces addr [addr]

/-- Every address of the bind list is replaced in its place, the concrete ones by themselves,
and no address has to be bound twice on a port of its own. -/
structure Expanded (bind : List SocketAddr) (ifaces : List NetworkInterface)
    (out : List SocketAddr) : Prop where
  parts : ∃ parts, out = parts.flatten ∧ List.Forall₂ (Expands ifaces) bind parts
  concrete : (bind.filter fun addr => !addr.ip.isUnspecified).Sublist out
  once : out.Pairwise fun a b => a = b → a.port = 0

/-- Of the families that are bound by a wildcard on a port of its own, no routable address is
carried twice, and if there is one, no other wildcard is on that port. -/
structure Distinct (bind : List SocketAddr) (ifaces : List NetworkInterface) : Prop where
  addrs : ∀ w ∈ bind, w.ip.isUnspecified = true → w.port ≠ 0 → (carried ifaces w.isIpv4).Nodup
  wildcards : ∀ w ∈ bind, ∀ w' ∈ bind, w.ip.isUnspecified = true → w'.ip.isUnspecified = true →
    w.isIpv4 = w'.isIpv4 → w.port = w'.port → w.port ≠ 0 → w ≠ w' → carried ifaces w.isIpv4 = []

section Expand

variable {bind : List SocketAddr} {ifaces : List NetworkInterface}

theorem mem_carried {wantV4 : Bool} {ip : IpAddr} :
    ip ∈ carried ifaces wantV4 ↔ Routable ifaces wantV4 ip := by
  simp only [carried, List.mem_flatMap, List.mem_filter, routable, Bool.not_eq_true',
    decide_eq_true_eq, Bool.not_eq_true]
  constructor
  · rintro ⟨iface, ⟨hiface, hinternal⟩, hip, hfamily, hloop, hlocal⟩
    exact ⟨hfamily, hloop, hlocal, iface, hiface, hinternal, hip⟩
  · rintro ⟨hfamily, hloop, hlocal, iface, hiface, hinternal, hip⟩
    exact ⟨iface, ⟨hiface, hinternal⟩, hip, hfamily, hloop, hlocal⟩

theorem carried_eq_nil {wantV4 : Bool} :
    carried ifaces wantV4 = [] ↔ ∀ ip, ¬Routable ifaces wantV4 ip := by
  rw [List.eq_nil_iff_forall_not_mem]
  exact forall_congr' fun ip => not_congr mem_carried

theorem expansion_of_concrete {addr : SocketAddr} (h : addr.ip.isUnspecified = false) :
    expansion ifaces addr = [addr] := by
  rw [expansion, if_neg (by simp [h])]

theorem expansion_of_nil {addr : SocketAddr} (h : carried ifaces addr.isIpv4 = []) :
    expansion ifaces addr = [addr] := by
  rw [expansion, if_neg fun hall => hall.2 h]

theorem expansion_of_ne_nil {addr : SocketAddr} (h : addr.ip.isUnspecified = true)
    (hne : carried ifaces addr.isIpv4 ≠ []) :
    expansion ifaces addr =
      (carried ifaces addr.isIpv4).map fun ip => SocketAddr.new ip addr.port := by
  rw [expansion, if_pos ⟨h, hne⟩]

theorem expands_expansion (ifaces : List NetworkInterface) (addr : SocketAddr) :
    Expands ifaces addr (expansion ifaces addr) := by
  cases hwild : addr.ip.isUnspecified with
  | false =>
      rw [expansion_of_concrete hwild]
      exact .concrete hwild
  | true =>
      by_cases hnil : carried ifaces addr.isIpv4 = []
      · rw [expansion_of_nil hnil]
        exact .retained hwild (carried_eq_nil.mp hnil)
      · rw [expansion_of_ne_nil hwild hnil]
        obtain ⟨ip, hip⟩ := List.exists_mem_of_ne_nil _ hnil
        refine .routable hwild ⟨ip, mem_carried.mp hip⟩ fun a => ?_
        simp only [List.mem_map, mem_carried, eq_comm]

theorem forall₂_expansion (bind : List SocketAddr) (ifaces : List NetworkInterface) :
    List.Forall₂ (Expands ifaces) bind (bind.map (expansion ifaces)) := by
  rw [List.forall₂_map_right_iff]
  exact List.forall₂_same.mpr fun addr _ => expands_expansion ifaces addr

theorem concrete_sublist (bind : List SocketAddr) (ifaces : List NetworkInterface) :
    (bind.filter fun addr => !addr.ip.isUnspecified).Sublist (bind.flatMap (expansion ifaces)) := by
  induction bind with
  | nil => exact .slnil
  | cons addr bind ih =>
      rw [List.flatMap_cons, List.filter_cons]
      split
      · rename_i hconcrete
        rw [expansion_of_concrete (by simpa using hconcrete)]
        exact ih.cons_cons addr
      · exact ih.trans (List.sublist_append_right _ _)

/-! ### When nothing is bound twice -/

theorem new_injective {ip ip' : IpAddr} {port : UInt16}
    (h : SocketAddr.new ip port = SocketAddr.new ip' port) : ip = ip' := by
  cases ip with
  | v4 octets =>
      cases ip' with
      | v4 octets' =>
          cases h
          rfl
      | v6 octets' => cases h
  | v6 octets =>
      cases ip' with
      | v4 octets' => cases h
      | v6 octets' =>
          cases h
          rfl

@[simp] theorem port_new (ip : IpAddr) (port : UInt16) : (SocketAddr.new ip port).port = port := by
  cases ip <;> rfl

@[simp] theorem isIpv4_new (ip : IpAddr) (port : UInt16) :
    (SocketAddr.new ip port).isIpv4 = ip.isIpv4 := by
  cases ip <;> rfl

theorem family_port_of_mem {addr a : SocketAddr} (h : a ∈ expansion ifaces addr) :
    a.isIpv4 = addr.isIpv4 ∧ a.port = addr.port := by
  unfold expansion at h
  split at h
  · obtain ⟨ip, hip, rfl⟩ := List.mem_map.mp h
    exact ⟨(isIpv4_new ip addr.port).trans (mem_carried.mp hip).family, port_new ip addr.port⟩
  · rw [List.mem_singleton.mp h]
    exact ⟨rfl, rfl⟩

def Apart (a b : SocketAddr) : Prop := a = b → a.port = 0

theorem expansion_pairwise (addr : SocketAddr) :
    (expansion ifaces addr).Pairwise Apart ↔
      (addr.ip.isUnspecified = true → addr.port ≠ 0 → (carried ifaces addr.isIpv4).Nodup) := by
  by_cases hwild : addr.ip.isUnspecified = true
  · by_cases hnil : carried ifaces addr.isIpv4 = []
    · rw [expansion_of_nil hnil, hnil]
      simp
    · rw [expansion_of_ne_nil hwild hnil, List.pairwise_map]
      constructor
      · intro h _ hport
        have hne : ∀ {ip ip' : IpAddr}, Apart (SocketAddr.new ip addr.port)
            (SocketAddr.new ip' addr.port) → ip ≠ ip' := by
          rintro ip _ hapart rfl
          exact hport ((port_new ip addr.port).symm.trans (hapart rfl))
        exact h.imp hne
      · intro h
        by_cases hport : addr.port = 0
        · exact List.pairwise_of_forall fun _ _ _ => (port_new _ _).trans hport
        · exact (h hwild hport).imp fun hne heq => absurd (new_injective heq) hne
  · rw [expansion_of_concrete (by simpa using hwild)]
    simp [hwild]

def ApartOnce (ifaces : List NetworkInterface) (a b : SocketAddr) : Prop :=
  ∀ x ∈ expansion ifaces a, ∀ y ∈ expansion ifaces b, Apart x y

instance : Std.Symm (ApartOnce ifaces) where
  symm a b h x hx y hy heq := by
    rw [heq]
    exact h y hy x hx heq.symm

theorem apartOnce_of_ne {a b : SocketAddr} (h : ¬(a.isIpv4 = b.isIpv4 ∧ a.port = b.port)) :
    ApartOnce ifaces a b := by
  intro x hx y hy heq
  obtain ⟨hxfamily, hxport⟩ := family_port_of_mem hx
  obtain ⟨hyfamily, hyport⟩ := family_port_of_mem hy
  exact absurd ⟨by rw [← hxfamily, heq, hyfamily], by rw [← hxport, heq, hyport]⟩ h

theorem apartOnce_wildcards {w w' : SocketAddr} (hw : w.ip.isUnspecified = true)
    (hw' : w'.ip.isUnspecified = true) (hfamily : w.isIpv4 = w'.isIpv4) (hport : w.port = w'.port)
    (hne : w ≠ w') :
    ApartOnce ifaces w w' ↔ (w.port ≠ 0 → carried ifaces w.isIpv4 = []) := by
  by_cases hnil : carried ifaces w.isIpv4 = []
  · have hself := expansion_of_nil hnil
    have hself' := expansion_of_nil (hfamily ▸ hnil : carried ifaces w'.isIpv4 = [])
    simp [ApartOnce, hself, hself', hnil, Apart, hne]
  · have hexp := expansion_of_ne_nil hw hnil
    have hexp' := expansion_of_ne_nil hw' (hfamily ▸ hnil : carried ifaces w'.isIpv4 ≠ [])
    rw [← hfamily, ← hport, ← hexp] at hexp'
    obtain ⟨ip, hip⟩ := List.exists_mem_of_ne_nil _ hnil
    constructor
    · intro h hzero
      have hmem : SocketAddr.new ip w.port ∈ expansion ifaces w := by
        rw [hexp]
        exact List.mem_map_of_mem hip
      exact absurd ((port_new ip w.port).symm.trans (h _ hmem _ (hexp' ▸ hmem) rfl)) hzero
    · intro h x hx y hy heq
      by_contra hzero
      rw [(family_port_of_mem hx).2] at hzero
      exact hnil (h hzero)

theorem once_iff (hbind : bind.Nodup)
    (hclash : ∀ a ∈ bind, a.ip.isUnspecified = false → ∀ w ∈ bind, w.ip.isUnspecified = true →
      ¬(a.isIpv4 = w.isIpv4 ∧ a.port = w.port)) :
    (bind.flatMap (expansion ifaces)).Pairwise Apart ↔ Distinct bind ifaces := by
  have hconcrete : ∀ a ∈ bind, a.ip.isUnspecified = false → ∀ b ∈ bind, a ≠ b →
      ApartOnce ifaces a b := by
    intro a ha hwild b hb hne
    cases hwild' : b.ip.isUnspecified with
    | true => exact apartOnce_of_ne (hclash a ha hwild b hb hwild')
    | false =>
        simp [ApartOnce, expansion_of_concrete hwild, expansion_of_concrete hwild', Apart, hne]
  -- concrete addresses are apart by themselves, so it comes down to the wildcards
  rw [List.pairwise_flatMap]
  have hpairs : bind.Pairwise (ApartOnce ifaces) ↔ {a | a ∈ bind}.Pairwise (ApartOnce ifaces) :=
    hbind.pairwise_coe.symm
  constructor
  · rintro ⟨hone, htwo⟩
    refine ⟨fun w hw hwild => (expansion_pairwise w).mp (hone w hw) hwild, ?_⟩
    intro w hw w' hw' hwild hwild' hfamily hport hzero hne
    have hapart := hpairs.mp htwo hw hw' hne
    exact (apartOnce_wildcards hwild hwild' hfamily hport hne).mp hapart hzero
  · intro h
    refine ⟨fun w hw => (expansion_pairwise w).mpr (h.addrs w hw), hpairs.mpr ?_⟩
    intro a ha b hb hne
    cases hwild : a.ip.isUnspecified with
    | false => exact hconcrete a ha hwild b hb hne
    | true =>
        cases hwild' : b.ip.isUnspecified with
        | false => exact symm (hconcrete b hb hwild' a ha hne.symm)
        | true =>
            by_cases hsame : a.isIpv4 = b.isIpv4 ∧ a.port = b.port
            · exact (apartOnce_wildcards hwild hwild' hsame.1 hsame.2 hne).mpr fun hzero =>
                h.wildcards a ha b hb hwild hwild' hsame.1 hsame.2 hzero hne
            · exact apartOnce_of_ne hsame

/-- The expanded list holds every concrete address in its place, every wildcard replaced by
the routable addresses of its family or retained, and nothing twice on a port of its own, if
and only if no such address is carried twice and no two wildcards share a port. -/
theorem expand_bind_addrs_iff (hbind : bind.Nodup)
    (hclash : ∀ a ∈ bind, a.ip.isUnspecified = false → ∀ w ∈ bind, w.ip.isUnspecified = true →
      ¬(a.isIpv4 = w.isIpv4 ∧ a.port = w.port)) :
    Expanded bind ifaces (expandBindAddrs bind ifaces) ↔ Distinct bind ifaces := by
  have honce := @once_iff bind ifaces hbind hclash
  constructor
  · intro h
    have hpairwise := h.once
    rw [expandBindAddrs_eq] at hpairwise
    exact honce.mp hpairwise
  · intro h
    rw [expandBindAddrs_eq]
    exact ⟨⟨_, List.flatMap_def, forall₂_expansion bind ifaces⟩, concrete_sublist bind ifaces,
      honce.mpr h⟩

end Expand

def lan : NetworkInterface := ⟨false, [.v4 #v[10, 0, 0, 5]]⟩

def wildcard (port : UInt16) : SocketAddr := .v4 #v[0, 0, 0, 0] port

/-- With one such interface the wildcard is replaced by its address. -/
theorem expand_bind_addrs_iff_lan :
    Expanded [wildcard 9000] [lan] (expandBindAddrs [wildcard 9000] [lan]) ∧
      expandBindAddrs [wildcard 9000] [lan] = [.v4 #v[10, 0, 0, 5] 9000] := by
  refine ⟨(expand_bind_addrs_iff (by decide) ?_).mpr ⟨?_, ?_⟩, by decide⟩
  · intro a ha hconcrete
    rw [List.mem_singleton.mp ha] at hconcrete
    exact absurd hconcrete (by decide)
  · intro w hw _ _
    rw [List.mem_singleton.mp hw]
    decide
  · intro w hw w' hw' _ _ _ _ _ hne
    exact absurd ((List.mem_singleton.mp hw).trans (List.mem_singleton.mp hw').symm) hne

/-- Where two interfaces carry the address, the wildcard alone expands to a list with a
repetition. -/
theorem expand_bind_addrs_repeats :
    expandBindAddrs [wildcard 9000] [lan, lan] =
        [.v4 #v[10, 0, 0, 5] 9000, .v4 #v[10, 0, 0, 5] 9000] ∧
      ¬Expanded [wildcard 9000] [lan, lan] (expandBindAddrs [wildcard 9000] [lan, lan]) := by
  have hout : expandBindAddrs [wildcard 9000] [lan, lan] =
      [.v4 #v[10, 0, 0, 5] 9000, .v4 #v[10, 0, 0, 5] 9000] := by decide
  refine ⟨hout, fun h => ?_⟩
  have honce := h.once
  rw [hout] at honce
  simp [SocketAddr.port] at honce

end VmIo.Chan
