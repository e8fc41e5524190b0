import Libid.Ceremony.Attestation
import Libid.Transcript.Correspondence
import Libid.Transcript.Layouts
import Libid.Transcript.Forgery
import Libid.Tlsn.Record
import Libid.Tlsn.Faithful
import Libid.Tlsn.Order
import Libid.Tlsn.Limits
import Libid.Transcript.Bearer
import Libid.Transcript.NonInterference
import Libid.Transcript.ChunkedBody
import Libid.Transcript.Headers
import Libid.Tlsn.Prover
import Libid.Transcript.Cut
import Libid.Transcript.Grammar
import Libid.Signer.Source
import Libid.Tlsn.Bounds
import Libid.Tlsn.Race
import Libid.Tlsn.Script
import Libid.Tlsn.Progress
import Libid.Tlsn.Build
import Libid.Base.Count
import Libid.Tlsn.Coverage
import Libid.Tlsn.Platform
import Libid.Tlsn.Capture
import Libid.Tlsn.Exchange
import Libid.Crypto.Key
import Libid.Tlsn.Notarize
import Libid.Tlsn.Requested
import Libid.Tlsn.Identified
import Libid.Tlsn.Serve
