import KalshiClient.Base.Bytes

/-!
# `TlsSocket::receive_data`

The receiving side of `src/network/tls_socket.cpp`.  A read gives some bytes or fails; `receive_data` turns every way
to fail into one text, and its callers see nothing else of it.
-/

namespace KalshiClient.Network

open Bytes

/-- `kReceiveBufferSize`, the most that one read can give. -/
def kReceiveBufferSize : Nat := 4096

/-- `EINTR`. -/
def eintr : Nat := 4

/-- How a read can fail, by `SSL_get_error`; the texts are those of the system and of the library. -/
inductive ReadFailure where
  /-- `SSL_ERROR_ZERO_RETURN`. -/
  | zeroReturn
  /-- `SSL_ERROR_WANT_READ`: on a blocking socket with a timeout, the timeout. -/
  | wantRead
  /-- `SSL_ERROR_SYSCALL`. -/
  | syscall (errno : Nat) (text : Bytes)
  /-- Any other. -/
  | other (text : Bytes)
deriving DecidableEq

namespace ReadFailure

/-- The text it is reported with. -/
def message : ReadFailure → Bytes
  | .zeroReturn => ascii "connection closed by peer"
  | .wantRead => ascii "receive timed out"
  | .syscall errno text =>
    if errno = eintr then ascii "interrupted"
    else if errno = 0 then ascii "connection closed by peer (no TLS close_notify)"
    else ascii "SSL_read failed: " ++ text
  | .other text => ascii "SSL_read failed: " ++ text

/-- The other side has closed the connection, with or without saying so. -/
def peerClosed : ReadFailure → Bool
  | .zeroReturn => true
  | .syscall errno _ => errno = 0
  | .wantRead | .other _ => false

end ReadFailure

end KalshiClient.Network
