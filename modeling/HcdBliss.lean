import HcdBliss.Go.Basic
import HcdBliss.Go.Slice
import HcdBliss.Lib
import HcdBliss.PublicKey
import HcdBliss.PrivateKey
import HcdBliss.Signature.Layout
import HcdBliss.Signature.Encode
import HcdBliss.Dsa
