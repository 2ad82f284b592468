import Vetro.Net.TcpRun

/-!
# Connections opened by the host

`vetro-net/src/hostfwd.rs`.  In place of the upstream there are two byte queues
for every connection; a full queue holds the guest back.
-/

namespace Vetro.Tcp

open Bytes

/-- Most bytes in one direction of a connection. -/
def hostBuffer : ℕ := 256 * 1024

/-- Host side of a connection. -/
structure HostEnd where
  flow : Flow
  /-- Opened, SYN not sent yet. -/
  pendingOpen : Bool := true
  toGuest : List Byte := []
  fromGuest : List Byte := []
  /-- The host has closed its direction. -/
  shutdown : Bool := false
  /-- The host has asked for an abort. -/
  abort : Bool := false
  /-- The FIN of the guest has arrived, after all its data. -/
  guestFin : Bool := false
  closed : Option CloseReason := none
  /-- Released by the host before its end. -/
  released : Bool := false
  deriving Repr, DecidableEq

namespace HostEnd

def tcpWrite (c : HostEnd) (data : List Byte) : ℕ × HostEnd :=
  let n := min data.length (hostBuffer - c.fromGuest.length)
  (n, { c with fromGuest := c.fromGuest ++ data.take n })

def tcpRead (c : HostEnd) (room : ℕ) : TcpRead × HostEnd :=
  if c.toGuest = [] then (if c.shutdown then .eof else .wouldBlock, c)
  else
    let n := min room c.toGuest.length
    (.data (c.toGuest.take n), { c with toGuest := c.toGuest.drop n })

def tcpShutdown (c : HostEnd) : HostEnd := { c with guestFin := true }

end HostEnd

/-- The upstream of one connection of the host. -/
instance : Upstream HostEnd where
  tcpStatus c _ _ := (.connected, c)
  tcpWrite c _ _ data := c.tcpWrite data
  tcpRead c _ _ room := c.tcpRead room
  tcpShutdown c _ _ := c.tcpShutdown
  tcpClose c _ _ _ := c

end Vetro.Tcp
